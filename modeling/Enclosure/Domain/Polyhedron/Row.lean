import Enclosure.Constraint.LinearBound

/-!
# Rows of a polyhedron

A row says that a rational combination of columns is at most, or below, a rational.
-/

namespace Enclosure

structure Row where
  coeffs : List Rat
  bound : Rat
  strict : Bool
  deriving DecidableEq

namespace Row

def holdsAt (r : Row) (x : List Rat) : Bool :=
  if r.strict then dot r.coeffs x < r.bound else dot r.coeffs x ≤ r.bound

def never (n : Nat) : Row := ⟨List.replicate n 0, -1, false⟩

def isConstant (r : Row) : Bool := allZero r.coeffs

def isContradiction (r : Row) : Bool :=
  r.isConstant && (r.bound < 0 || (r.strict && r.bound = 0))

def negate (r : Row) : Row := ⟨r.coeffs.map (- ·), -r.bound, !r.strict⟩

def flip (r : Row) : Row := ⟨r.coeffs.map (- ·), -r.bound, r.strict⟩

def divide (r : Row) (q : Rat) : Row := ⟨r.coeffs.map (· / q), r.bound / q, r.strict⟩

/-- The row scaled so that the first coefficient that matters is `1` or `-1`, if there is
one. -/
def normalize? (r : Row) : Option Row := (r.coeffs.find? (· ≠ 0)).map fun q => r.divide q.abs

def coeff (r : Row) (col : Nat) : Rat := r.coeffs.getD col 0

def unit (n col : Nat) : List Rat := (List.replicate n 0).set col 1

def zeroRows (n col : Nat) : List Row :=
  [⟨unit n col, 0, false⟩, ⟨(unit n col).map (- ·), 0, false⟩]

def orderOfCoeffs : List Rat → List Rat → Ordering
  | [], [] => .eq
  | [], _ => .lt
  | _, [] => .gt
  | x :: xs, y :: ys => if x < y then .lt else if y < x then .gt else orderOfCoeffs xs ys

def precedes (r s : Row) : Bool :=
  match orderOfCoeffs r.coeffs s.coeffs with
  | .lt => true
  | .gt => false
  | .eq => if r.bound < s.bound then true else if s.bound < r.bound then false
    else r.strict || !s.strict

end Row

namespace Rows

def firstOfRuns : List Row → List Row
  | [] => []
  | r :: rest =>
    match firstOfRuns rest with
    | [] => [r]
    | s :: more => if s.coeffs = r.coeffs then r :: more else r :: s :: more

def columns : List Row → Nat
  | [] => 0
  | r :: _ => r.coeffs.length

/-- The system with the same solutions that has one row for each direction, the tightest, ordered by
direction. -/
def tidy (rows : List Row) : List Row :=
  if rows.any (·.isContradiction) then [.never (columns rows)]
  else firstOfRuns ((rows.filterMap (·.normalize?)).mergeSort Row.precedes)

end Rows

end Enclosure
