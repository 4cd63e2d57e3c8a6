import Enclosure.Domain
import Enclosure.Domain.Polyhedron.Elimination

/-!
# Polyhedra

A polyhedron is the set of solutions of a system of rows.
-/

namespace Enclosure

structure Polyhedron where
  space : Space
  rows : List Row
  wide : ∀ r ∈ rows, r.coeffs.length = space.size
  deriving DecidableEq

namespace Polyhedron

open Rows (tidy infeasible entails columnRange)

def top (s : Space) : Polyhedron := ⟨s, [], by simp⟩

def bottom (s : Space) : Polyhedron := ⟨s, [.never s.size], by simp [Row.never]⟩

def make (s : Space) (rows : List Row) : Except Failure Polyhedron :=
  if wide : ∀ r ∈ rows, r.coeffs.length = s.size then .ok ⟨s, rows, wide⟩
  else .error (.sizeMismatch .polyhedronRows)

def bounds (p : Polyhedron) : List LinearBound :=
  p.rows.map fun r => ⟨r.coeffs, r.bound, if r.strict then .below else .atMost⟩

def requireSame (operation : DomainOperation) (a b : Polyhedron) : Op Unit :=
  if a.space = b.space then return ()
  else Op.fail (.sizeMismatch (.domain .polyhedra operation))

/-! ### Queries -/

def isBottom (p : Polyhedron) : Op Bool := infeasible p.rows

def isTop (p : Polyhedron) : Bool := p.rows.all fun r => r.isConstant && !r.isContradiction

def includes (outer inner : Polyhedron) : Op Bool := do
  if ← infeasible inner.rows then return true
  else outer.rows.allM (entails inner.rows)

def isLeq (a b : Polyhedron) : Op Bool := do
  requireSame .isLeq a b
  b.includes a

def same (a b : Polyhedron) : Bool :=
  let both : Op Bool := do
    if ← a.includes b then b.includes a else return false
  a.space = b.space &&
    match both.run ⟨.isEq, .standard, []⟩ .start with
    | .ok (answer, _) => answer
    | .error _ => false

def boundDimension (p : Polyhedron) (d : Nat) : Op Interval := do
  if p.space.size ≤ d then Op.fail (.dimensionTooHigh (.domain .polyhedra .boundDimension))
  else
    match ← Rows.project p.rows ((List.range p.space.size).map (· = d)) with
    | some rows =>
      return if rows.any (·.isContradiction) then .bottom .rational else columnRange rows
    | none => return .top .rational

def toBox (p : Polyhedron) : Op (List Interval) := do
  if ← p.isBottom then return List.replicate p.space.size (.bottom .rational)
  else (List.range p.space.size).mapM p.boundDimension

def denseTerms? (n : Nat) (f : LinearForm) : Option (List Rat) :=
  f.rationalTerms?.bind fun terms =>
    if terms.all (·.1 < n) then
      some (terms.foldl (fun cs (d, q) => cs.set d q) (List.replicate n 0))
    else none

def withColumn (cs : List Rat) (rows : List Row) : List Row :=
  let definition : Row := ⟨cs.map (- ·) ++ [1], 0, false⟩
  rows.map (fun r => { r with coeffs := r.coeffs ++ [0] }) ++ [definition, definition.flip]

/-- The range of a linear form: a new column equal to its terms, and then its constant. -/
def boundForm (p : Polyhedron) (f : LinearForm) : Op Interval := do
  let n := p.space.size
  let overBox : Op Interval := do Op.ofExcept (f.eval (← p.toBox) .rational)
  if ← p.isBottom then return .bottom .rational
  else
    match denseTerms? n f with
    | none => overBox
    | some cs =>
      match ← Rows.project (withColumn cs p.rows) ((List.range (n + 1)).map (· = n)) with
      | none => overBox
      | some rows => return (columnRange rows).add (f.constant.toIntervalOf .rational)

def toLinear (p : Polyhedron) : Op (List LinearConstraint) := do
  if ← p.isBottom then return [.unsatisfiable]
  else return p.bounds.map (·.toConstraint)

/-! ### Redundancy -/

/-- The system without the first row that the others imply; `none` if there is no such row. -/
def dropRedundant? : List Row → List Row → Op (Option (List Row))
  | _, [] => return none
  | before, r :: after => do
    if ← infeasible (before ++ after ++ [r.negate]) then return some (before ++ after)
    else dropRedundant? (before ++ [r]) after

def dropAllRedundant : Nat → List Row → Op (List Row)
  | 0, rows => return rows
  | fuel + 1, rows => do
    match ← dropRedundant? [] rows with
    | some fewer => dropAllRedundant fuel fewer
    | none => return rows

def minimize (p : Polyhedron) : Op Polyhedron := do
  let rows := tidy p.rows
  if ← infeasible rows then return bottom p.space
  else Op.ofExcept (make p.space (← dropAllRedundant rows.length rows))

/-! ### Constraints -/

def rangeRows (n d : Nat) (lo hi : ExtRat) : List Row :=
  let upper := hi.fin?.map fun h => Row.mk (Row.unit n d) h false
  let lower := lo.fin?.map fun l => Row.mk ((Row.unit n d).map (- ·)) (-l) false
  upper.toList ++ lower.toList

def ofIntervals (s : Space) (is : List Interval) : Op Polyhedron :=
  let rational := is.map (·.convert .rational)
  if is.length ≠ s.size then Op.fail (.sizeMismatch (.domain .polyhedra .ofBox))
  else if rational.any (·.isEmpty) then return bottom s
  else
    Op.ofExcept (make s (tidy (rational.zipIdx.flatMap fun (i, d) =>
      if s.isInt d then rangeRows s.size d i.lo.value.ceil i.hi.value.floor
      else rangeRows s.size d i.lo.value i.hi.value)))

def rowsOf (strict : Bool) (b : LinearBound) : Op (List Row) := do
  let row : Row := ⟨b.coeffs, b.bound, false⟩
  match b.relation with
  | .atMost => return [row]
  | .below =>
    if !strict then Op.markInexact
    return [{ row with strict := strict }]
  | .equal => return [row, row.flip]

def relaxAll (strict : Bool) (bounds : List Interval) (s : Space) :
    List LinearConstraint → Op (Option (List Row))
  | [] => return some []
  | c :: cs => do
    match ← LinearBound.relax c bounds s with
    | none => return none
    | some bs =>
      let rows ← bs.mapM (rowsOf strict)
      return (← relaxAll strict bounds s cs).map (rows.flatten ++ ·)

def addConstraints (strict : Bool) (p : Polyhedron) (bounds : List Interval)
    (cs : List LinearConstraint) : Op Polyhedron := do
  match ← relaxAll strict bounds p.space cs with
  | none => return bottom p.space
  | some rows => Op.ofExcept (make p.space (tidy (p.rows ++ rows)))

def meetLinear (strict : Bool) (p : Polyhedron) (cs : List LinearConstraint) :
    Op Polyhedron := do
  if cs.all (·.form.isQuasilinear) then
    addConstraints strict p (List.replicate p.space.size (.top .rational)) cs
  else if ← p.isBottom then return p
  else addConstraints strict p (← p.toBox) cs

/-! ### Lattice operations -/

def meet (a b : Polyhedron) : Op Polyhedron := do
  requireSame .meet a b
  Op.ofExcept (make a.space (tidy (a.rows ++ b.rows)))

/-- The system whose solutions `(x, y, s)` write `x` as the sum of `y`, which is in `s` times
the first set, and `x - y`, which is in `1 - s` times the second, with `s` between `0` and
`1`. -/
def hullSystem (n : Nat) (first second : List Row) : List Row :=
  let zeros := List.replicate n (0 : Rat)
  let weight := List.replicate (2 * n) (0 : Rat) ++ [1]
  first.map (fun r => ⟨zeros ++ r.coeffs ++ [-r.bound], 0, false⟩) ++
    second.map (fun r => ⟨r.coeffs ++ r.coeffs.map (- ·) ++ [r.bound], r.bound, false⟩) ++
    [⟨weight.map (- ·), 0, false⟩, ⟨weight, 1, false⟩]

def join (a b : Polyhedron) : Op Polyhedron := do
  requireSame .join a b
  if ← a.isLeq b then return b
  else if ← b.isLeq a then return a
  else
    Op.markInexact
    let n := a.space.size
    let keep := List.replicate n true ++ List.replicate (n + 1) false
    match ← Rows.project (hullSystem n a.rows b.rows) keep with
    | some rows => (← Op.ofExcept (make a.space rows)).minimize
    | none => return top a.space

def replacesSome (rows : List Row) (c : Row) : Op Bool :=
  rows.zipIdx.anyM fun (r, i) => entails (rows.set i c) r

/-- Adds a row to the rows that are kept, if it is implied by the first system and can take
the place of one of its rows. -/
def keepIfStable (first : List Row) (kept : List Row) (c : Row) : Op (List Row) := do
  if kept.contains c then return kept
  else if !(← entails first c) then return kept
  else if ← replacesSome first c then return kept ++ [c]
  else return kept

/-- Keeps the rows of the first polyhedron that the second satisfies, and the rows of the
second that can take the place of one of the first. -/
def widening (a b : Polyhedron) : Op Polyhedron := do
  requireSame .widening a b
  if ← a.isBottom then return b
  else if ← b.isBottom then return a
  else
    let first := (← a.minimize).rows
    let second := (← b.minimize).rows
    let kept ← first.filterM (entails second)
    let all ← second.foldlM (keepIfStable first) kept
    Op.ofExcept (make a.space (tidy all))

/-! ### Dimensions -/

def addDimensions (p : Polyhedron) (c : SpaceChange) (project : Bool) : Op Polyhedron := do
  let s := p.space.grow c
  let rows := p.rows.map fun r => { r with coeffs := c.insertInto 0 r.coeffs }
  if project then
    let added ← Op.ofExcept c.checkedAdded
    if added.any (s.size ≤ ·) then Op.fail .outOfRange
    else Op.ofExcept (make s (rows ++ added.flatMap (Row.zeroRows s.size)))
  else Op.ofExcept (make s rows)

def removeDimensions (p : Polyhedron) (c : SpaceChange) : Op Polyhedron := do
  if c.dims.any (p.space.size ≤ ·) then
    Op.fail (.removedTooHigh (.domain .polyhedra .removeDimensions))
  else
    let s ← Op.ofExcept (p.space.shrink c)
    match ← Rows.project p.rows ((List.range p.space.size).map (!c.drops ·)) with
    | some rows => Op.ofExcept (make s rows)
    | none => return top s

def permuteDimensions (p : Polyhedron) (perm : Permutation) : Op Polyhedron :=
  if perm.size ≠ p.space.size then
    Op.fail (.sizeMismatch (.domain .polyhedra .permuteDimensions))
  else
    Op.ofExcept (do
      let rows ← p.rows.mapM fun r => return { r with coeffs := ← perm.permute r.coeffs }
      make p.space rows)

def refill : List Bool → List Rat → List Rat
  | [], _ => []
  | true :: keep, c :: cs => c :: refill keep cs
  | true :: keep, [] => 0 :: refill keep []
  | false :: keep, cs => 0 :: refill keep cs

/-- The system without what it says of some columns; nothing is left of it if that cannot
be found within the limit. -/
def forgetRows (rows : List Row) (keep : List Bool) : Op (List Row) := do
  match ← Rows.project rows keep with
  | some rows => return rows.map fun r => { r with coeffs := refill keep r.coeffs }
  | none => return []

def forget (p : Polyhedron) (dims : List Nat) (project : Bool) : Op Polyhedron := do
  let n := p.space.size
  if dims.any (n ≤ ·) then Op.fail (.dimensionTooHigh (.domain .polyhedra .forget))
  else if ← p.isBottom then return p
  else
    let rows ← forgetRows p.rows ((List.range n).map (!dims.contains ·))
    let zeros := if project then dims.flatMap (Row.zeroRows n) else []
    Op.ofExcept (make p.space (tidy (rows ++ zeros)))

def core (strict : Bool) : DomainCore Polyhedron where
  library := if strict then "poly, strict mode" else "poly, loose mode"
  kind := .rational
  top := top
  bottom := bottom
  ofBox := ofIntervals
  space := space
  isBottom := isBottom
  isTop p := return p.isTop
  isLeq := isLeq
  boundDimension := boundDimension
  toBox := toBox
  toLinear := toLinear
  meet := meet
  meetLinear := meetLinear strict
  join := join
  widening := widening
  addDimensions := addDimensions
  removeDimensions := removeDimensions
  permuteDimensions := permuteDimensions
  forget := forget

def domain (strict : Bool) : Domain Polyhedron where
  toDomainCore := core strict
  boundForm := boundForm
  assignForms := (core strict).assignByFresh
  assignTerms := (core strict).assignLinearized

end Polyhedron

end Enclosure
