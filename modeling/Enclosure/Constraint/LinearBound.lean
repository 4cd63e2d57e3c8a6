import Enclosure.Constraint.Linear
import Enclosure.Op

/-!
# Rational linear bounds

A linear bound says that a rational combination of all dimensions of a space is at most, below, or
equal to a rational.
-/

namespace Enclosure

inductive BoundRelation
  | atMost
  | below
  | equal
  deriving DecidableEq

def BoundRelation.symbol : BoundRelation → String
  | atMost => "<="
  | below => "<"
  | equal => "="

def BoundRelation.all : List BoundRelation := [atMost, below, equal]

def BoundRelation.holds : BoundRelation → Rat → Rat → Bool
  | atMost, x, b => x ≤ b
  | below, x, b => x < b
  | equal, x, b => x = b

def dot (cs xs : List Rat) : Rat := (List.zipWith (· * ·) cs xs).foldl (· + ·) 0

def allZero (cs : List Rat) : Bool := cs.all (· = 0)

structure LinearBound where
  coeffs : List Rat
  bound : Rat
  relation : BoundRelation
  deriving DecidableEq

namespace LinearBound

def unconstrained (n : Nat) : LinearBound := ⟨List.replicate n 0, 1, .atMost⟩

def unsatisfiable (n : Nat) : LinearBound := ⟨List.replicate n 0, -1, .atMost⟩

def trivial? (b : LinearBound) : Option Bool :=
  if allZero b.coeffs then some (b.relation.holds 0 b.bound) else none

def holdsAt (b : LinearBound) (x : List Rat) : Bool := b.relation.holds (dot b.coeffs x) b.bound

def scale (b : LinearBound) (q : Rat) : LinearBound :=
  { b with coeffs := b.coeffs.map (· * q), bound := b.bound * q }

/-- The factor by which the first nonzero coefficient differs from that of another bound
at the same place. -/
def ratio? (a b : LinearBound) : Option Rat :=
  match (a.coeffs.zip b.coeffs).find? (·.1 ≠ 0) with
  | some (x, y) => if y = 0 then none else some (x / y)
  | none => none

/-- Whether two bounds are multiples of each other: positive ones, or any nonzero ones for
equations. -/
def same (a b : LinearBound) : Bool :=
  a.coeffs.length = b.coeffs.length && a.relation = b.relation &&
    match a.trivial?, b.trivial? with
    | some s, some t => s = t
    | none, none =>
      match ratio? a b with
      | some q => (0 < q || a.relation = .equal) && a = b.scale q
      | none => false
    | _, _ => false

def toConstraint (b : LinearBound) : LinearConstraint :=
  let entries := b.coeffs.zipIdx.filter (·.1 ≠ 0)
  let form : LinearForm :=
    ⟨.rational b.bound, .sparse (entries.map fun (c, d) => (d, .rational (-c)))⟩
  match b.relation with
  | .atMost => .plain .atLeast form
  | .below => .plain .above form
  | .equal => .plain .equal form

def denominator (cs : List Rat) : Nat := cs.foldl (fun n c => n.lcm c.den) 1

def content (cs : List Rat) : Nat := cs.foldl (fun n c => n.gcd c.num.natAbs) 0

def primitive (b : LinearBound) : LinearBound :=
  let whole := b.scale (denominator b.coeffs)
  whole.scale (1 / (content whole.coeffs : Rat))

def isIntegral (s : Space) (b : LinearBound) : Bool :=
  b.coeffs.zipIdx.all fun (c, d) => c = 0 || s.isInt d

def tighten (b : LinearBound) : Bool × LinearBound :=
  match b.relation with
  | .atMost => (true, { b with bound := b.bound.floor })
  | .below => (true, { b with bound := b.bound.ceil - 1, relation := .atMost })
  | .equal => (b.bound.den = 1, b)

/-- The bound with integer coefficients without common divisor; if only integer dimensions matter,
tightened to the integers. -/
def normalize (s : Space) (b : LinearBound) : Bool × LinearBound :=
  match b.trivial? with
  | some holds => (holds, b)
  | none => if b.primitive.isIntegral s then b.primitive.tighten else (true, b.primitive)

/-- The bounds in normal form, without those that always hold; `none` if one cannot be
satisfied. -/
def normalizeAll (s : Space) : List LinearBound → Option (List LinearBound)
  | [] => some []
  | b :: rest =>
    match b.normalize s with
    | (false, _) => none
    | (true, b) =>
      (normalizeAll s rest).map fun bs => if b.trivial? = some true then bs else b :: bs

/-- The negated coefficients of a form as a list of `size` rationals, starting from `acc`;
`none` when one is no finite number. -/
def coefficients (size : Nat) :
    List (Nat × Coefficient) → List Rat → Except Failure (Option (List Rat))
  | [], acc => .ok (some acc)
  | (d, c) :: rest, acc =>
    if size ≤ d then .error (.dimensionTooHigh .relaxation)
    else
      match c.rational? with
      | some q => coefficients size rest (acc.set d (-q))
      | none => .ok none

def upper (cs : List Rat) (rel : BoundRelation) (hi : ExtRat) : List LinearBound :=
  match hi with
  | .fin h => [⟨cs, h, rel⟩]
  | _ => []

def lower (cs : List Rat) (lo : ExtRat) : List LinearBound :=
  match lo with
  | .fin l => [⟨cs.map (- ·), -l, .atMost⟩]
  | _ => []

/-- The bounds on `cs · x` implied by comparing `-(cs · x) + c` with zero for some `c`
between `lo` and `hi`; `none` when bounds cannot say anything. -/
def implied? (comparison : Comparison) (modulus : Option Number) (cs : List Rat)
    (lo hi : ExtRat) : Option (List LinearBound) :=
  let equation :=
    if lo = hi then upper cs .equal hi else upper cs .atMost hi ++ lower cs lo
  match comparison with
  | .atLeast => some (upper cs .atMost hi)
  | .above => some (upper cs .below hi)
  | .equal => some equation
  | .congruent =>
    match modulus with
    | some m => if m.isZero then some equation else none
    | none => some equation
  | .notEqual => none

/-- The bounds that a constraint implies when each dimension is within its given bound; `none` if it
cannot be satisfied. -/
def relax (c : LinearConstraint) (bounds : List Interval) (s : Space) :
    Op (Option (List LinearBound)) := do
  if c.isUnsatisfiable then return none
  let f ← Op.ofExcept (c.form.quasilinearize bounds .rational)
  if !c.form.isQuasilinear then Op.markInexact
  match ← Op.ofExcept (coefficients s.size f.nonzero (List.replicate s.size 0)) with
  | none =>
    Op.raise .invalidArgument "infinite coefficient in a constraint"
    return some []
  | some cs =>
    let constant := f.constant.toInterval.convert .rational
    match implied? c.comparison c.modulus cs constant.lo.value constant.hi.value with
    | some bs => return normalizeAll s bs
    | none =>
      Op.markInexact
      return some []

end LinearBound

end Enclosure
