import Enclosure.Environment
import Enclosure.Expression.Term

/-!
# Objects over an environment

Forms, terms and constraints speak of dimensions.
-/

namespace Enclosure

class Dimensional (α : Type) where
  support : α → Nat
  addDimensions : α → SpaceChange → α
  textWith : (Nat → String) → α → String

instance : Dimensional LinearForm :=
  ⟨LinearForm.support, LinearForm.addDimensions, LinearForm.textWith⟩

instance : Dimensional Term := ⟨Term.support, Term.addDimensions, Term.textWith⟩

def listText (texts : List String) : String := "[" ++ " , ".intercalate texts ++ "]"

instance {α : Type} [Dimensional α] : Dimensional (List α) where
  support xs := xs.foldl (fun n x => Nat.max n (Dimensional.support x)) 0
  addDimensions xs c := xs.map (Dimensional.addDimensions · c)
  textWith name xs := listText (xs.map (Dimensional.textWith name))

def plainText {α : Type} [Dimensional α] (x : α) : String := Dimensional.textWith plainName x

structure Scoped (α : Type) where
  env : Environment
  item : α
  deriving DecidableEq

namespace Scoped

variable {α : Type}

def make [Dimensional α] (place : Place) (env : Environment) (x : α) :
    Except Failure (Scoped α) :=
  if env.size < Dimensional.support x then .error (.dimensionTooHigh place) else .ok ⟨env, x⟩

def extend [Dimensional α] (x : Scoped α) (larger : Environment) : Except Failure (Scoped α) := do
  let c ← x.env.embed larger
  return ⟨larger, Dimensional.addDimensions x.item c⟩

def text [Dimensional α] (x : Scoped α) : String :=
  Dimensional.textWith x.env.dimensionName x.item

def push [Dimensional α] (xs : Scoped (List α)) (x : Scoped α) :
    Except Failure (Scoped (List α)) := do
  let y ← x.extend xs.env
  return ⟨xs.env, xs.item ++ [y.item]⟩

def ofList [Dimensional α] (env : Environment) (xs : List (Scoped α)) :
    Except Failure (Scoped (List α)) :=
  xs.foldlM push ⟨env, []⟩

def items (xs : Scoped (List α)) : List (Scoped α) := xs.item.map (⟨xs.env, ·⟩)

end Scoped

/-! ### Linear forms over an environment -/

namespace LinearForm

def setNamed (env : Environment) (es : List (String × Coefficient)) (f : LinearForm) :
    Except Failure LinearForm :=
  es.foldlM (fun f (v, c) => do f.setCoefficient (← env.dimension v) c) f

def ofNamed (env : Environment) (es : List (String × Coefficient)) (c : Coefficient) :
    Except Failure (Scoped LinearForm) := do
  return ⟨env, ← setNamed env es (zero.setConstant c)⟩

def denseOfNamed (env : Environment) (es : List (String × Coefficient)) (c : Coefficient) :
    Except Failure (Scoped LinearForm) := do
  return ⟨env, (← setNamed env es (zeros env.size)).setConstant c⟩

end LinearForm

namespace Scoped

def coefficient (f : Scoped LinearForm) (v : String) : Except Failure Coefficient := do
  let d ← f.env.dimension v
  return (f.item.coefficient? d).getD (.zero .double)

def setCoefficient (f : Scoped LinearForm) (v : String) (c : Coefficient) :
    Except Failure (Scoped LinearForm) := do
  return ⟨f.env, ← f.item.setCoefficient (← f.env.dimension v) c⟩

def map {α β : Type} (g : α → β) (x : Scoped α) : Scoped β := ⟨x.env, g x.item⟩

/-! ### Terms over an environment -/

def ofVariable (env : Environment) (v : String) : Except Failure (Scoped Term) := do
  return ⟨env, .dim (← env.dimension v)⟩

def unary (op : Operator) (format : ResultFormat) (policy : RoundingPolicy) (arg : Scoped Term) :
    Except Failure (Scoped Term) := do
  return ⟨arg.env, ← Term.makeUnary op format policy arg.item⟩

def binary (op : Operator) (format : ResultFormat) (policy : RoundingPolicy)
    (lhs rhs : Scoped Term) : Except Failure (Scoped Term) := do
  let env ← lhs.env.union rhs.env
  let l ← lhs.extend env
  let r ← rhs.extend env
  return ⟨env, ← Term.makeBinary op format policy l.item r.item⟩

def exactBinary (op : BinaryOperator) (lhs rhs : Scoped Term) : Except Failure (Scoped Term) :=
  binary (.binary op) .real .nearest lhs rhs

def neg (t : Scoped Term) : Scoped Term := t.map (.unary .neg .real .nearest)

def hasVariable (t : Scoped Term) (v : String) : Bool :=
  match t.env.dimension? v with
  | some d => t.item.hasDim d
  | none => false

def substitute (t : Scoped Term) (v : String) (replacement : Scoped Term) :
    Except Failure (Scoped Term) := do
  let _ ← t.env.dimension v
  let env ← t.env.union replacement.env
  let body ← t.extend env
  let r ← replacement.extend env
  let d ← env.dimension v
  return ⟨env, Term.substitute d r.item body.item⟩

def toLinear? (t : Scoped Term) : Option (Scoped LinearForm) :=
  t.item.toLinear?.map fun f => ⟨t.env, f⟩

end Scoped

end Enclosure
