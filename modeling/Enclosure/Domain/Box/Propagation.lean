import Enclosure.Domain.Box

/-!
# Constraints on boxes

A linear constraint narrows the range of each of its dimensions to what the ranges of the others
leave possible.
-/

namespace Enclosure

/-- The comparison that a box can use: a congruence with a modulus says nothing, without
one it is an equation. -/
def LinearConstraint.usable? (c : LinearConstraint) : Option Comparison :=
  match c.comparison with
  | .congruent =>
    match c.modulus with
    | some m => if m.isZero then some .equal else none
    | none => some .equal
  | comparison => some comparison

def LinearForm.without (f : LinearForm) (d : Nat) : LinearForm :=
  ⟨f.constant, .sparse (f.entries.filter (·.1 ≠ d))⟩

namespace Box

/-- For an integer strictly inside one end of a range, moves that end to the next integer. -/
def strictInteger (q : Interval) (lower : Bool) : Interval :=
  if lower && q.lo.isInteger then ⟨q.lo.add .down (.one q.kind), q.hi⟩
  else if !lower && q.hi.isInteger then ⟨q.lo, q.hi.sub .up (.one q.kind)⟩
  else q

def target (k : Kind) (comparison : Comparison) (rest : Interval) : Interval :=
  match comparison with
  | .equal => rest.neg
  | _ => ⟨rest.hi.neg, .infinity k 1⟩

/-- What a constraint leaves of the range `current` of a dimension with coefficient `a`,
when the rest of the form is within `rest`. -/
def narrow (k : Kind) (isInt : Bool) (comparison : Comparison) (a rest current : Interval) :
    Interval :=
  let q := (target k comparison rest).div a
  let q :=
    if isInt && comparison = .above && k = .rational && a.isPoint then
      strictInteger q (0 < a.lo.sign)
    else q
  current.meet (fit k isInt q)

/-- Narrows the ranges of the given dimensions of a constraint one after the other; `none`
if nothing is left of one. -/
def narrowAll (k : Kind) (s : Space) (comparison : Comparison) (f : LinearForm) :
    List (Nat × Coefficient) → List Interval → Except Failure (Option (List Interval))
  | [], bs => .ok (some bs)
  | (d, c) :: more, bs => do
    let a := c.toIntervalOf k
    if a.containsZero then narrowAll k s comparison f more bs
    else
      let rest ← (f.without d).eval bs k
      let i := narrow k (s.isInt d) comparison a rest (← fetch bs d)
      if i.isEmpty then return none
      else narrowAll k s comparison f more (bs.set d i)

/-- Narrows the ranges of all dimensions of a constraint; `none` if no point satisfies it. -/
def apply (k : Kind) (s : Space) (c : LinearConstraint) (bs : List Interval) :
    Except Failure (Option (List Interval)) :=
  match c.usable? with
  | none => .ok (some bs)
  | some comparison => do
    let full ← c.form.eval bs k
    if comparison.excludes none full then return none
    else if comparison = .notEqual then return some bs
    else narrowAll k s comparison c.form c.form.nonzero bs

def round (k : Kind) (s : Space) :
    List LinearConstraint → List Interval → Except Failure (Option (List Interval))
  | [], bs => .ok (some bs)
  | c :: cs, bs => do
    match ← apply k s c bs with
    | some bs => round k s cs bs
    | none => return none

def rounds (k : Kind) (s : Space) (cs : List LinearConstraint) :
    Nat → List Interval → Except Failure (Option (List Interval))
  | 0, bs => .ok (some bs)
  | n + 1, bs => do
    match ← round k s cs bs with
    | none => return none
    | some bs' => if bs' = bs then return some bs else rounds k s cs n bs'

/-- Whether a box can express a constraint exactly: it bounds one dimension, with a number
as coefficient. -/
def expresses (c : LinearConstraint) : Bool :=
  c.form.isQuasilinear && c.form.nonzero.length ≤ 1 &&
    match c.comparison with
    | .notEqual => false
    | .congruent => false
    | _ => true

def roundLimit (options : OperationOptions) : Nat := Nat.max 10 options.algorithm.toNat

def propagate (k : Kind) (v : Box) (cs : List LinearConstraint) : Op Box :=
  match v with
  | empty _ => return v
  | ranges s bs => do
    if !cs.all expresses then Op.markInexact
    let request ← read
    match ← Op.ofExcept (rounds k s cs (roundLimit request.options) bs) with
    | none => return empty s
    | some bs => Op.ofExcept (make s bs)

def core (k : Kind) : DomainCore Box where
  library := "box"
  kind := k
  top s := ranges s (List.replicate s.size (.top k))
  bottom := empty
  ofBox := ofIntervals k
  space := space
  isBottom v := return v.isEmpty
  isTop v := return v.isTop
  isLeq := isLeq
  boundDimension := boundDimension k
  toBox v := return v.bounds k
  toLinear v := return v.toLinear k
  meet := meet
  meetLinear := propagate k
  join := join
  widening := widening
  addDimensions := addDimensions k
  removeDimensions := removeDimensions
  permuteDimensions := permuteDimensions
  forget := forget k

def domain (k : Kind) : Domain Box where
  toDomainCore := core k
  boundForm := (core k).boundByBox
  assignForms := assignForms k
  assignTerms := assignTerms k

def domainOf (k : Kind) : Except Failure (Domain Box) :=
  if k = .binary 0 then .error .zeroBoxPrecision else .ok (domain k)

end Box

end Enclosure
