/-!
# Rounding directions

An operation that cannot represent its exact result moves it to a neighbouring representable number.
-/

namespace Enclosure

inductive Rounding
  | nearest
  | zero
  | up
  | down
  | away
  deriving DecidableEq

namespace Rounding

/-- The direction seen after negating every operand: rounding `-x` in direction
`r.flip` is the negation of rounding `x` in direction `r`. -/
def flip : Rounding → Rounding
  | up => down
  | down => up
  | r => r

/-- Whether a directed rounding enlarges the magnitude of an inexact value of the given sign. -/
def enlarges : Rounding → Bool → Bool
  | zero, _ => false
  | nearest, _ => false
  | away, _ => true
  | up, negative => !negative
  | down, negative => negative

def label : Rounding → String
  | nearest => "nearest"
  | zero => "zero"
  | up => "up"
  | down => "down"
  | away => "away"

def all : List Rounding := [nearest, zero, up, down, away]

@[simp]
theorem flip_flip (r : Rounding) : r.flip.flip = r := by
  cases r <;> rfl

theorem enlarges_flip (r : Rounding) (negative : Bool) :
    r.flip.enlarges (!negative) = r.enlarges negative := by
  cases r <;> cases negative <;> rfl

end Rounding

end Enclosure
