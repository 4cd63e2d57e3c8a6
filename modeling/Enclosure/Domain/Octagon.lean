import Enclosure.Domain
import Enclosure.Domain.Octagon.Matrix

/-!
# Octagons

An octagon bounds the sums and differences of two dimensions by a matrix over their nodes.
-/

namespace Enclosure

/-- An octagon over a space: bounds on the differences of nodes, whether they are closed,
whether no point satisfies them, and whether they are the result of a widening. -/
structure Octagon where
  space : Space
  matrix : BoundMatrix
  closed : Bool
  empty : Bool
  widened : Bool
  deriving DecidableEq

namespace Octagon

def top (s : Space) : Octagon := ⟨s, .unbounded (2 * s.size), true, false, false⟩

def bottom (s : Space) : Octagon := { top s with empty := true }

def close (o : Octagon) : Octagon :=
  if o.closed || o.empty then o
  else
    match o.matrix.close? o.space with
    | some m => { o with matrix := m, closed := true, widened := false }
    | none => { o with empty := true }

def bounds (o : Octagon) : List Interval :=
  if o.empty then List.replicate o.space.size (.bottom .rational)
  else (List.range o.space.size).map fun d => .ofExt (o.matrix.lower d) (o.matrix.upper d)

structure NodeBound where
  a : Nat
  b : Nat
  bound : ExtRat
  deriving DecidableEq

def tighten (o : Octagon) (c : NodeBound) : Octagon :=
  let m := o.matrix.tighten c.a c.b c.bound
  { o with matrix := m, closed := o.closed && m = o.matrix }

def tightenAll (o : Octagon) (cs : List NodeBound) : Octagon := cs.foldl tighten o

def requireSame (operation : DomainOperation) (a b : Octagon) : Op Unit :=
  if a.space = b.space then return ()
  else Op.fail (.sizeMismatch (.domain .octagon operation))

def rangeBounds (d : Nat) (lo hi : ExtRat) : List NodeBound :=
  [⟨2 * d, 2 * d + 1, hi.twice⟩, ⟨2 * d + 1, 2 * d, lo.neg.twice⟩]

def ofIntervals (s : Space) (is : List Interval) : Op Octagon :=
  let rational := is.map (·.convert .rational)
  if is.length ≠ s.size then Op.fail (.sizeMismatch (.domain .octagon .ofBox))
  else if rational.any (·.isEmpty) then return bottom s
  else
    return (top s).tightenAll (rational.zipIdx.flatMap fun (i, d) =>
      if s.isInt d then rangeBounds d i.lo.value.ceil i.hi.value.floor
      else rangeBounds d i.lo.value i.hi.value)

/-! ### Queries -/

def isBottom (o : Octagon) : Bool := o.close.empty

def isTop (o : Octagon) : Bool :=
  let m := o.close.matrix
  !o.close.empty && m.allNodes fun a => m.allNodes fun b => a = b || m.entry a b = .posInf

def within (a b : Octagon) : Bool :=
  let c := a.close
  c.empty || (!b.empty && c.matrix.le b.matrix)

def isLeq (a b : Octagon) : Op Bool := do
  requireSame .isLeq a b
  return a.within b

def boundDimension (v : Octagon) (d : Nat) : Op Interval :=
  let o := v.close
  if o.empty then return .bottom .rational
  else if o.space.size ≤ d then Op.fail .outOfRange
  else return .ofExt (o.matrix.lower d) (o.matrix.upper d)

def pairRange (m : BoundMatrix) (i : Nat) (x : Rat) (j : Nat) (y : Rat) : Interval :=
  let scale := ExtRat.fin x.abs
  let up := (m.entry (node i (0 < x)) (node j (y < 0))).mul scale
  let down := ((m.entry (node i (x < 0)) (node j (0 < y))).mul scale).neg
  .ofExt down up

/-- The range of a linear form: over the ranges of the dimensions, and from the matrix
itself if the form is a multiple of a sum or difference. -/
def boundForm (v : Octagon) (f : LinearForm) : Op Interval := do
  let o := v.close
  if o.empty then return .bottom .rational
  else
    let direct ← Op.ofExcept (f.eval o.bounds .rational)
    match f.rationalTerms? with
    | some [(i, x), (j, y)] =>
      if x.abs = y.abs then
        return direct.meet ((pairRange o.matrix i x j y).add (f.constant.toIntervalOf .rational))
      else return direct
    | _ => return direct

def entryConstraint? (m : BoundMatrix) (a b : Nat) : Option LinearConstraint :=
  match m.entry a b with
  | .fin c =>
    let sign (x : Nat) (s : Rat) : Rat := if x % 2 = 0 then s else -s
    let x := sign a (-1)
    let y := sign b 1
    let (terms, c) :=
      if b = opposite a then ([(nodeDim a, (x + y) / 2)], c / 2)
      else if nodeDim a < nodeDim b then ([(nodeDim a, x), (nodeDim b, y)], c)
      else ([(nodeDim b, y), (nodeDim a, x)], c)
    some (.plain .atLeast (.ofTerms (terms.map fun (d, q) => (d, .rational q)) (.rational c)))
  | _ => none

def isFirstPlace (a b : Nat) : Bool :=
  a < opposite b || (a = opposite b && b ≤ opposite a)

def toLinear (v : Octagon) : List LinearConstraint :=
  let o := v.close
  if o.empty then [.unsatisfiable]
  else
    let nodes := List.range o.matrix.nodes
    nodes.flatMap fun a =>
      (nodes.filter fun b => a ≠ b && isFirstPlace a b).filterMap (entryConstraint? o.matrix a)

/-! ### Linear bounds -/

def termBound (d : Nat) (x c : Rat) : NodeBound :=
  ⟨node d (0 < x), opposite (node d (0 < x)), .fin (c / x.abs * 2)⟩

def pairBound (i : Nat) (x : Rat) (j : Nat) (y c : Rat) : NodeBound :=
  ⟨node i (0 < x), node j (!(0 < y)), .fin (c / x.abs)⟩

def directBounds? (terms : List (Nat × Rat)) (c : Rat) : Option (List NodeBound) :=
  match terms with
  | [] => some []
  | [(d, x)] => some [termBound d x c]
  | [(i, x), (j, y)] => if x.abs = y.abs then some [pairBound i x j y c] else none
  | _ => none

def leastValue (bounds : List Interval) (d : Nat) (x : Rat) : ExtRat :=
  let i := bounds.getD d (.top .rational)
  (if 0 < x then i.lo.value else i.hi.value).mul (.fin x)

def sumWithout (values : List ExtRat) (skipped : List Nat) : Option Rat :=
  let rest := (values.zipIdx.filter fun (_, k) => !skipped.contains k).map (·.1)
  (rest.foldlM ExtRat.add? .zero).bind (·.fin?)

/-- The bounds that `terms ≤ c` implies on each term and on each pair of terms of one
magnitude: what is left when the other terms have their least values. -/
def impliedBounds (terms : List (Nat × Rat)) (c : Rat) (bounds : List Interval) :
    List NodeBound :=
  let least := terms.map fun (d, x) => leastValue bounds d x
  terms.zipIdx.flatMap fun ((i, x), k) =>
    ((sumWithout least [k]).map fun r => termBound i x (c - r)).toList ++
      terms.zipIdx.filterMap fun ((j, y), l) =>
        if k < l ∧ x.abs = y.abs then
          (sumWithout least [k, l]).map fun r => pairBound i x j y (c - r)
        else none

def addBound (o : Octagon) (coeffs : List Rat) (c : Rat) (bounds : List Interval) :
    Op Octagon := do
  let terms := (coeffs.zipIdx.filter (·.1 ≠ 0)).map fun (x, d) => (d, x)
  match directBounds? terms c with
  | some cs => return o.tightenAll cs
  | none =>
    Op.markInexact
    return o.tightenAll (impliedBounds terms c bounds)

def addLinearBound (bounds : List Interval) (o : Octagon) (b : LinearBound) : Op Octagon := do
  match b.relation with
  | .atMost => o.addBound b.coeffs b.bound bounds
  | .below =>
    Op.markInexact
    o.addBound b.coeffs b.bound bounds
  | .equal =>
    let o ← o.addBound b.coeffs b.bound bounds
    o.addBound (b.coeffs.map (- ·)) (-b.bound) bounds

def relaxAll (bounds : List Interval) (s : Space) :
    List LinearConstraint → Op (Option (List LinearBound))
  | [] => return some []
  | c :: cs => do
    match ← LinearBound.relax c bounds s with
    | none => return none
    | some bs => return (← relaxAll bounds s cs).map (bs ++ ·)

def meetLinear (v : Octagon) (cs : List LinearConstraint) : Op Octagon := do
  let o := v.close
  if o.empty then return o
  else
    match ← relaxAll o.bounds o.space cs with
    | none => return bottom o.space
    | some bs => return (← bs.foldlM (addLinearBound o.bounds) o).close

/-! ### Lattice operations -/

def meet (a b : Octagon) : Op Octagon := do
  requireSame .meet a b
  if a.empty || b.empty then return bottom a.space
  else
    let m := a.matrix.mapEntries fun i j e => e.min (b.matrix.entry i j)
    return ⟨a.space, m, false, false, false⟩

def join (a b : Octagon) : Op Octagon := do
  requireSame .join a b
  let x := a.close
  let y := b.close
  if x.empty then return y
  else if y.empty then return x
  else
    if !x.within y && !y.within x then Op.markInexact
    let m := x.matrix.mapEntries fun i j e => e.max (y.matrix.entry i j)
    return ⟨x.space, m, x.closed && y.closed, false, false⟩

def widening (a b : Octagon) : Op Octagon := do
  requireSame .widening a b
  let x := if a.widened then a else a.close
  if x.empty then return b
  else
    let y := b.close
    if y.empty then return x
    else
      let m := x.matrix.mapEntries fun i j e => if y.matrix.entry i j ≤ e then e else .posInf
      return ⟨x.space, m, false, false, true⟩

/-! ### Dimensions -/

def addDimensions (v : Octagon) (c : SpaceChange) (project : Bool) : Op Octagon := do
  let s := v.space.grow c
  let n := 2 * s.size
  if ← Op.exceedsSize (n * n) then return top s
  else if v.empty then return bottom s
  else
    let shifts := c.shifts v.space.size
    let moved := BoundMatrix.ofFn n fun i j =>
      match shifts.idxOf? (nodeDim i), shifts.idxOf? (nodeDim j) with
      | some d, some e => v.matrix.entry (nodeOf i d) (nodeOf j e)
      | _, _ => if i = j then .zero else .posInf
    if project then
      let added ← Op.ofExcept c.checkedAdded
      if added.any (s.size ≤ ·) then Op.fail .outOfRange
      else
        let m := moved.mapEntries fun i j e =>
          if j = opposite i ∧ nodeDim i ∈ added then .zero else e
        return ⟨s, m, false, false, false⟩
    else return ⟨s, moved, v.closed, false, false⟩

def removeDimensions (v : Octagon) (c : SpaceChange) : Op Octagon := do
  if c.dims.any (v.space.size ≤ ·) then
    Op.fail (.removedTooHigh (.domain .octagon .removeDimensions))
  else
    let s ← Op.ofExcept (v.space.shrink c)
    let o := v.close
    if o.empty then return bottom s
    else
      let kept := c.kept v.space.size
      if kept.length ≠ s.size then Op.fail .outOfRange
      else
        let old (i : Nat) : Nat := nodeOf i (kept.getD (nodeDim i) 0)
        let m := BoundMatrix.ofFn (2 * s.size) fun i j => o.matrix.entry (old i) (old j)
        return ⟨s, m, o.closed, false, false⟩

def permuteDimensions (v : Octagon) (p : Permutation) : Op Octagon :=
  if p.size ≠ v.space.size then
    Op.fail (.sizeMismatch (.domain .octagon .permuteDimensions))
  else
    let old (i : Nat) : Nat := nodeOf i (p.preimage (nodeDim i))
    return { v with matrix := v.matrix.mapEntries fun i j _ => v.matrix.entry (old i) (old j) }

def forget (v : Octagon) (dims : List Nat) (project : Bool) : Op Octagon :=
  let o := v.close
  if o.empty then return o
  else if dims.any (v.space.size ≤ ·) then
    Op.fail (.dimensionTooHigh (.domain .octagon .forget))
  else
    let m := o.matrix.mapEntries fun i j e =>
      if i = j then e
      else if nodeDim i ∈ dims ∨ nodeDim j ∈ dims then
        if project && j = opposite i then .zero else .posInf
      else e
    return { o with matrix := m, closed := o.closed && (!project || dims.isEmpty) }

def core : DomainCore Octagon where
  library := "oct"
  kind := .rational
  top := top
  bottom := bottom
  ofBox := ofIntervals
  space := space
  isBottom v := return v.isBottom
  isTop v := return v.isTop
  isLeq := isLeq
  boundDimension := boundDimension
  toBox v := return v.close.bounds
  toLinear v := return v.toLinear
  meet := meet
  meetLinear := meetLinear
  join := join
  widening := widening
  addDimensions := addDimensions
  removeDimensions := removeDimensions
  permuteDimensions := permuteDimensions
  forget := forget

def domain : Domain Octagon where
  toDomainCore := core
  boundForm := boundForm
  assignForms := core.assignByFresh
  assignTerms := core.assignLinearized

end Octagon

end Enclosure
