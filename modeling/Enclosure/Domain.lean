import Enclosure.Constraint.LinearBound

/-!
# Abstract domains

A domain represents sets of points of a space.
-/

namespace Enclosure

structure DomainCore (V : Type) where
  library : String
  kind : Kind
  top : Space → V
  bottom : Space → V
  ofBox : Space → List Interval → Op V
  space : V → Space
  isBottom : V → Op Bool
  isTop : V → Op Bool
  isLeq : V → V → Op Bool
  boundDimension : V → Nat → Op Interval
  toBox : V → Op (List Interval)
  toLinear : V → Op (List LinearConstraint)
  meet : V → V → Op V
  meetLinear : V → List LinearConstraint → Op V
  join : V → V → Op V
  widening : V → V → Op V
  addDimensions : V → SpaceChange → Bool → Op V
  removeDimensions : V → SpaceChange → Op V
  permuteDimensions : V → Permutation → Op V
  forget : V → List Nat → Bool → Op V

structure Domain (V : Type) extends DomainCore V where
  boundForm : V → LinearForm → Op Interval
  assignForms : V → List Nat → List LinearForm → Op V
  assignTerms : V → List Nat → List Term → Op V

def Domain.version : String := "0.1.0"

/-! ### Fresh dimensions -/

def SpaceChange.append (size n : Nat) : SpaceChange := ⟨List.replicate n size, 0, n⟩

def SpaceChange.dropLast (size n : Nat) : SpaceChange :=
  ⟨(List.range n).map (size + ·), 0, n⟩

def Permutation.exchange (size : Nat) (dims : List Nat) : Except Failure Permutation :=
  dims.zipIdx.foldlM (fun p (d, k) => p.swap d (size + k)) (identity (size + dims.length))

def LinearConstraint.definition (d : Nat) (f : LinearForm) : LinearConstraint :=
  let n := f.neg
  plain .equal (.ofTerms (n.entries ++ [(d, .rational 1)]) n.constant)

def LinearConstraint.definitions (size : Nat) (forms : List LinearForm) :
    List LinearConstraint :=
  forms.zipIdx.map fun (f, k) => definition (size + k) f

/-! ### Derived from the core operations -/

namespace DomainCore

variable {V : Type} (D : DomainCore V)

def boundByBox (v : V) (f : LinearForm) : Op Interval := do
  if ← D.isBottom v then return .bottom D.kind
  else
    let bounds ← D.toBox v
    Op.ofExcept (f.eval bounds D.kind)

def linearizeAll (v : V) (ts : List Term) : Op (List LinearForm) := do
  let bounds ← D.toBox v
  ts.mapM fun t =>
    match t.toLinear? with
    | some f => return f
    | none => do
      Op.markInexact
      Op.ofExcept (t.linearize bounds D.kind)

/-- Simultaneous assignment: fresh dimensions get the values of the forms, the assigned
dimensions are forgotten and exchanged with the fresh ones, which go. -/
def assignByFresh (v : V) (dims : List Nat) (forms : List LinearForm) : Op V := do
  if dims.length ≠ forms.length then Op.fail (.lengthMismatch (.anyDomain .assignForms))
  else
    let size := (D.space v).size
    let grown ← D.addDimensions v (.append size dims.length) false
    let defined ← D.meetLinear grown (LinearConstraint.definitions size forms)
    let forgotten ← D.forget defined dims false
    let exchanged ← D.permuteDimensions forgotten (← Op.ofExcept (Permutation.exchange size dims))
    D.removeDimensions exchanged (.dropLast size dims.length)

def assignLinearized (v : V) (dims : List Nat) (ts : List Term) : Op V := do
  D.assignByFresh v dims (← D.linearizeAll v ts)

end DomainCore

namespace Domain

variable {V : Type} (D : Domain V)

def isEq (a b : V) : Op Bool := do
  if ← D.isLeq a b then D.isLeq b a else return false

def isFree (v : V) (d : Nat) : Op Bool := do
  D.isLeq (← D.forget v [d] false) v

def satInterval (v : V) (d : Nat) (i : Interval) : Op Bool := do
  let b ← D.boundDimension v d
  return b.isEmpty || (b.convert .rational).leq (i.convert .rational)

def satLinear (v : V) (c : LinearConstraint) : Op Bool := do
  if ← D.isBottom v then return true
  else
    let b ← D.boundForm v c.form
    return b.isEmpty || c.comparison.includes b

/-- The range of a term: that of the term itself, met with that of a linear form that
includes its values. -/
def boundTerm (v : V) (t : Term) : Op Interval := do
  if ← D.isBottom v then return .bottom D.kind
  else
    let bounds ← D.toBox v
    let direct ← Op.ofExcept (t.eval bounds D.kind)
    let form ← Op.ofExcept (t.linearize bounds D.kind)
    return direct.meet (← D.boundForm v form)

def satTerm (v : V) (c : TermConstraint) : Op Bool := do
  if ← D.isBottom v then return true
  else
    let b ← D.boundTerm v c.term
    return b.isEmpty || c.comparison.includes b

def meetTerms (v : V) (cs : List TermConstraint) : Op V := do
  let bounds ← D.toBox v
  let linear ← cs.mapM fun c => do
    let form ← Op.ofExcept (c.term.linearize bounds D.kind)
    return LinearConstraint.mk c.comparison form c.modulus
  if cs.any (·.term.toLinear?.isNone) then Op.markInexact
  D.meetLinear v linear

def wideningThreshold (a b : V) (thresholds : List LinearConstraint) : Op V := do
  let w ← D.widening a b
  let kept ← thresholds.filterM fun c => do
    if ← D.satLinear a c then D.satLinear b c else return false
  D.meetLinear w kept

/-- The points whose image under a simultaneous assignment is in the value: the value is
moved to fresh dimensions, which are then made equal to the forms and go. -/
def substituteForms (v : V) (dims : List Nat) (forms : List LinearForm) : Op V := do
  if dims.length ≠ forms.length then Op.fail (.lengthMismatch (.anyDomain .substituteForms))
  else
    let size := (D.space v).size
    let grown ← D.addDimensions v (.append size dims.length) false
    let exchanged ← D.permuteDimensions grown (← Op.ofExcept (Permutation.exchange size dims))
    let defined ← D.meetLinear exchanged (LinearConstraint.definitions size forms)
    D.removeDimensions defined (.dropLast size dims.length)

def substituteTerms (v : V) (dims : List Nat) (ts : List Term) : Op V := do
  D.substituteForms v dims (← D.linearizeAll v ts)

end Domain

end Enclosure
