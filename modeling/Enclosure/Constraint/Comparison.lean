import Enclosure.Interval

/-!
# Comparisons with zero

A constraint compares an expression with zero.
-/

namespace Enclosure

inductive Comparison
  | equal
  | atLeast
  | above
  | congruent
  | notEqual
  deriving DecidableEq

namespace Comparison

def symbol : Comparison → String
  | equal => "=="
  | atLeast => ">="
  | above => ">"
  | congruent => "%="
  | notEqual => "!="

def all : List Comparison := [equal, atLeast, above, congruent, notEqual]

def excludes (c : Comparison) (modulus : Option Number) (i : Interval) : Bool :=
  i.isEmpty ||
    match c with
    | equal => !i.containsZero
    | congruent =>
      match modulus with
      | some m => m.isZero && !i.containsZero
      | none => !i.containsZero
    | atLeast => i.hi.sign < 0
    | above => i.hi.sign ≤ 0
    | notEqual => i.isZero

def includes (c : Comparison) (i : Interval) : Bool :=
  match c with
  | equal => i.isZero
  | congruent => i.isZero
  | atLeast => 0 ≤ i.lo.sign
  | above => 0 < i.lo.sign
  | notEqual => !i.containsZero

/-- The text after the expression of a constraint: the comparison, and the modulus or
zero. -/
def tail (c : Comparison) (modulus : Option Number) : String :=
  " " ++ c.symbol ++ " " ++ (modulus.map (·.text)).getD "0"

end Comparison

end Enclosure
