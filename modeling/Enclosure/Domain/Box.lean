import Enclosure.Domain

/-!
# Boxes

A box bounds every dimension by an interval of its own.
-/

namespace Enclosure

inductive Box
  | empty (space : Space)
  | ranges (space : Space) (bounds : List Interval)
  deriving DecidableEq

namespace Box

def space : Box → Space
  | empty s => s
  | ranges s _ => s

def isEmpty : Box → Bool
  | empty _ => true
  | ranges _ _ => false

def bounds (k : Kind) : Box → List Interval
  | empty s => List.replicate s.size (.bottom k)
  | ranges _ bs => bs

def make (s : Space) (bs : List Interval) : Except Failure Box :=
  if bs.length ≠ s.size then .error (.sizeMismatch .boxBounds)
  else .ok (if bs.any (·.isEmpty) then empty s else ranges s bs)

def same (k : Kind) (a b : Box) : Bool :=
  a.space = b.space && (List.zipWith Interval.same (a.bounds k) (b.bounds k)).all id

def fit (k : Kind) (isInt : Bool) (i : Interval) : Interval :=
  let j := i.convert k
  if isInt && !j.isEmpty then Interval.canonical ⟨j.lo.ceil, j.hi.floor⟩ else j

def zeroRange (k : Kind) : Interval := .point (.zero k)

def filler (k : Kind) (project : Bool) : Interval := if project then zeroRange k else .top k

def requireSame (operation : DomainOperation) (a b : Box) : Op Unit :=
  if a.space = b.space then return () else Op.fail (.sizeMismatch (.domain .box operation))

def ofIntervals (k : Kind) (s : Space) (is : List Interval) : Op Box :=
  if is.length ≠ s.size then Op.fail (.sizeMismatch (.domain .box .ofBox))
  else if is.any (·.isEmpty) then return empty s
  else Op.ofExcept (make s (is.zipIdx.map fun (i, d) => fit k (s.isInt d) i))

def isTop : Box → Bool
  | empty _ => false
  | ranges _ bs => bs.all (·.isTop)

def within : Box → Box → Bool
  | empty _, _ => true
  | ranges _ _, empty _ => false
  | ranges _ xs, ranges _ ys => (List.zipWith Interval.leq xs ys).all id

def isLeq (a b : Box) : Op Bool := do
  requireSame .isLeq a b
  return a.within b

def boundDimension (k : Kind) (v : Box) (d : Nat) : Op Interval :=
  match (v.bounds k)[d]? with
  | some i => return i
  | none => Op.fail (.dimensionTooHigh (.domain .box .boundDimension))

def rangeConstraints (k : Kind) (i : Interval) (d : Nat) : List LinearConstraint :=
  let one := Coefficient.exact (.one k)
  let lower : LinearForm := .ofTerms [(d, one)] (.exact i.lo.neg)
  let upper : LinearForm := .ofTerms [(d, one.neg)] (.exact i.hi)
  if i.isPoint then [.plain .equal lower]
  else
    (if i.lo.isInfinite then [] else [.plain .atLeast lower]) ++
      (if i.hi.isInfinite then [] else [.plain .atLeast upper])

def toLinear (k : Kind) : Box → List LinearConstraint
  | empty _ => [.unsatisfiable]
  | ranges _ bs => bs.zipIdx.flatMap fun (i, d) => rangeConstraints k i d

def meet (a b : Box) : Op Box := do
  requireSame .meet a b
  match a, b with
  | ranges s xs, ranges _ ys => Op.ofExcept (make s (List.zipWith Interval.meet xs ys))
  | _, _ => return empty a.space

def join (a b : Box) : Op Box := do
  requireSame .join a b
  match a, b with
  | empty _, _ => return b
  | _, empty _ => return a
  | ranges s xs, ranges _ ys =>
    if !a.within b && !b.within a then Op.markInexact
    Op.ofExcept (make s (List.zipWith Interval.join xs ys))

def widening (a b : Box) : Op Box := do
  requireSame .widening a b
  match a, b with
  | empty _, _ => return b
  | _, empty _ => return a
  | ranges s xs, ranges _ ys => Op.ofExcept (make s (List.zipWith Interval.widening xs ys))

def addDimensions (k : Kind) (v : Box) (c : SpaceChange) (project : Bool) : Op Box :=
  match v with
  | empty s => return empty (s.grow c)
  | ranges s bs => Op.ofExcept (make (s.grow c) (c.insertInto (filler k project) bs))

def removeDimensions (v : Box) (c : SpaceChange) : Op Box := do
  if c.dims.any (v.space.size ≤ ·) then
    Op.fail (.removedTooHigh (.domain .box .removeDimensions))
  else
    let s ← Op.ofExcept (v.space.shrink c)
    match v with
    | empty _ => return empty s
    | ranges _ bs => Op.ofExcept (make s (c.removeFrom bs))

def permuteDimensions (v : Box) (p : Permutation) : Op Box :=
  match v with
  | empty _ => return v
  | ranges s bs => Op.ofExcept (do make s (← p.permute bs))

def forget (k : Kind) (v : Box) (dims : List Nat) (project : Bool) : Op Box :=
  match v with
  | empty _ => return v
  | ranges s bs =>
    if dims.any (bs.length ≤ ·) then Op.fail (.dimensionTooHigh (.domain .box .forget))
    else return ranges s (dims.foldl (fun bs d => bs.set d (filler k project)) bs)

def assignEach {α : Type} (operation : DomainOperation) (k : Kind) (s : Space)
    (simple : α → Bool) (value : α → Except Failure Interval) :
    List (Nat × α) → List Interval → Op (List Interval)
  | [], bs => return bs
  | (d, e) :: rest, bs => do
    if bs.length ≤ d then Op.fail (.dimensionTooHigh (.domain .box operation))
    else
      if !simple e then Op.markInexact
      let i ← Op.ofExcept (value e)
      assignEach operation k s simple value rest (bs.set d (fit k (s.isInt d) i))

def assign {α : Type} (operation : DomainOperation) (k : Kind) (simple : α → Bool)
    (value : List Interval → α → Except Failure Interval) (v : Box) (dims : List Nat)
    (es : List α) : Op Box := do
  if dims.length ≠ es.length then Op.fail (.lengthMismatch (.domain .box operation))
  else
    match v with
    | empty _ => return v
    | ranges s bs =>
      let bs' ← assignEach operation k s simple (value bs) (dims.zip es) bs
      Op.ofExcept (make s bs')

/-- Whether the range of a form is exactly the set of its values over any box: it has
numbers as coefficients, and at most one dimension matters. -/
def isSimple (f : LinearForm) : Bool := f.nonzero.length ≤ 1 && f.isLinear

def assignForms (k : Kind) (v : Box) (dims : List Nat) (forms : List LinearForm) : Op Box :=
  assign .assignForms k isSimple (fun bs f => f.eval bs k) v dims forms

def assignTerms (k : Kind) (v : Box) (dims : List Nat) (ts : List Term) : Op Box :=
  assign .assignTerms k (fun t => (t.toLinear?.map isSimple).getD false)
    (fun bs t => t.eval bs k) v dims ts

end Box

end Enclosure
