import Enclosure.Manager

/-!
# Abstract values

An abstract value is a value of a domain over the dimensions that an environment names.
-/

namespace Enclosure

structure AbstractValue (V : Type) where
  manager : Nat
  env : Environment
  value : V

namespace AbstractValue

open Managed

variable {V : Type} (D : Domain V)

def embed (v : V) : Option SpaceChange → Op V
  | some c => D.addDimensions v c false
  | none => return v

def requireSameManager (operation : String) (a b : AbstractValue V) : Managed Unit :=
  if a.manager = b.manager then return () else throw (.managerMismatch operation)

def binary {α : Type} (id : OperationId) (f : V → V → Op α) (a b : AbstractValue V) :
    Managed (Environment × α) := do
  let (env, c, d) ← attempt (a.env.unionWithChanges b.env)
  let result ← perform id do
    let x ← embed D a.value c
    let y ← embed D b.value d
    f x y
  return (env, result)

/-- Runs an operation on a value and an object, both moved to their least common
environment. -/
def withScoped {α β : Type} [Dimensional α] (id : OperationId) (f : V → α → Op β)
    (a : AbstractValue V) (x : Scoped α) : Managed (Environment × β) := do
  let (env, c, _) ← attempt (a.env.unionWithChanges x.env)
  let moved ← attempt (x.extend env)
  let result ← perform id do f (← embed D a.value c) moved.item
  return (env, result)

def withVariable {α : Type} (id : OperationId) (f : V → Nat → Op α) (a : AbstractValue V)
    (v : String) : Managed α := do
  let d ← attempt (a.env.dimension v)
  perform id (f a.value d)

/-! ### Construction -/

def top (manager : Nat) (env : Environment) : Managed (AbstractValue V) := do
  return ⟨manager, env, ← perform .top (return D.top env.space)⟩

def bottom (manager : Nat) (env : Environment) : Managed (AbstractValue V) := do
  return ⟨manager, env, ← perform .bottom (return D.bottom env.space)⟩

def narrowRanges (k : Kind) (env : Environment) (bounds : List (String × Interval)) :
    Except Failure (List Interval) :=
  bounds.foldlM (fun is (v, i) => do
    let d ← env.dimension v
    return is.modify d (·.meet (i.convert k))) (List.replicate env.size (.top k))

def ofBox (manager : Nat) (env : Environment) (bounds : List (String × Interval)) :
    Managed (AbstractValue V) := do
  let is ← attempt (narrowRanges D.kind env bounds)
  return ⟨manager, env, ← perform .ofBox (D.ofBox env.space is)⟩

def ofLinear (manager : Nat) (cs : Scoped (List LinearConstraint)) :
    Managed (AbstractValue V) := do
  return ⟨manager, cs.env, ← perform .meetLinear (D.meetLinear (D.top cs.env.space) cs.item)⟩

def ofTerms (manager : Nat) (cs : Scoped (List TermConstraint)) :
    Managed (AbstractValue V) := do
  return ⟨manager, cs.env, ← perform .meetTerms (D.meetTerms (D.top cs.env.space) cs.item)⟩

/-! ### Queries -/

def isBottom (a : AbstractValue V) : Managed Bool := perform .isBottom (D.isBottom a.value)

def isTop (a : AbstractValue V) : Managed Bool := perform .isTop (D.isTop a.value)

def isLeq (a b : AbstractValue V) : Managed Bool := do
  requireSameManager "is_leq" a b
  return (← binary D .isLeq D.isLeq a b).2

def isEq (a b : AbstractValue V) : Managed Bool := do
  requireSameManager "is_eq" a b
  return (← binary D .isEq D.isEq a b).2

def same (a b : AbstractValue V) : Managed Bool := do
  if a.manager ≠ b.manager then return false
  else
    match a.env.union b.env with
    | .ok _ => isEq D a b
    | .error _ => return false

def isFree (a : AbstractValue V) (v : String) : Managed Bool :=
  withVariable .isFree D.isFree a v

def satInterval (a : AbstractValue V) (v : String) (i : Interval) : Managed Bool :=
  withVariable .satInterval (fun x d => D.satInterval x d i) a v

def satLinear (a : AbstractValue V) (c : Scoped LinearConstraint) : Managed Bool := do
  return (← withScoped D .satLinear D.satLinear a c).2

def satTerm (a : AbstractValue V) (c : Scoped TermConstraint) : Managed Bool := do
  return (← withScoped D .satTerm D.satTerm a c).2

def boundVariable (a : AbstractValue V) (v : String) : Managed Interval :=
  withVariable .boundDimension D.boundDimension a v

def boundForm (a : AbstractValue V) (f : Scoped LinearForm) : Managed Interval := do
  return (← withScoped D .boundForm D.boundForm a f).2

def boundTerm (a : AbstractValue V) (t : Scoped Term) : Managed Interval := do
  return (← withScoped D .boundTerm D.boundTerm a t).2

def toBox (a : AbstractValue V) : Managed (List (String × Interval)) := do
  return a.env.vars.zip (← perform .toBox (D.toBox a.value))

def toLinear (a : AbstractValue V) : Managed (Scoped (List LinearConstraint)) := do
  return ⟨a.env, ← perform .toLinear (D.toLinear a.value)⟩

def toTerms (a : AbstractValue V) : Managed (Scoped (List TermConstraint)) := do
  let cs ← perform .toTerms (D.toLinear a.value)
  return ⟨a.env, cs.map .ofLinear⟩

def text (a : AbstractValue V) : Managed String := return (← toLinear D a).text

/-! ### Lattice operations -/

def renew (a : AbstractValue V) (r : Environment × V) : AbstractValue V :=
  ⟨a.manager, r.1, r.2⟩

def meet (a b : AbstractValue V) : Managed (AbstractValue V) := do
  requireSameManager "meet" a b
  return a.renew (← binary D .meet D.meet a b)

def join (a b : AbstractValue V) : Managed (AbstractValue V) := do
  requireSameManager "join" a b
  return a.renew (← binary D .join D.join a b)

def widening (a b : AbstractValue V) : Managed (AbstractValue V) := do
  requireSameManager "widening" a b
  return a.renew (← binary D .widening D.widening a b)

def wideningThreshold (a b : AbstractValue V) (thresholds : Scoped (List LinearConstraint)) :
    Managed (AbstractValue V) := do
  requireSameManager "widening_threshold" a b
  let both ← attempt (a.env.union b.env)
  let env ← attempt (both.union thresholds.env)
  let moved ← attempt (thresholds.extend env)
  let value ← perform .widening do
    let x ← embed D a.value (Environment.proper (a.env.embedding? env))
    let y ← embed D b.value (Environment.proper (b.env.embedding? env))
    D.wideningThreshold x y moved.item
  return ⟨a.manager, env, value⟩

def meetLinear (a : AbstractValue V) (cs : Scoped (List LinearConstraint)) :
    Managed (AbstractValue V) := do
  return a.renew (← withScoped D .meetLinear D.meetLinear a cs)

def meetTerms (a : AbstractValue V) (cs : Scoped (List TermConstraint)) :
    Managed (AbstractValue V) := do
  return a.renew (← withScoped D .meetTerms D.meetTerms a cs)

/-- The least environment that contains a given one and those of all values, which must
have one manager. -/
def commonEnvironment (id : OperationId) (manager : Nat) :
    Environment → List (AbstractValue V) → Except Failure Environment
  | env, [] => .ok env
  | env, v :: vs =>
    if v.manager ≠ manager then .error (.managerMismatch id.label)
    else do commonEnvironment id manager (← env.union v.env) vs

/-- Combines many values in one operation, over the least environment that contains a given
one and theirs. -/
def combineAll (id : OperationId) (unit : Space → V) (f : V → V → Op V) (manager : Nat)
    (env : Environment) (vs : List (AbstractValue V)) : Managed (AbstractValue V) := do
  let env ← attempt (commonEnvironment id manager env vs)
  let value ← perform id (vs.foldlM (fun acc v => do
    f acc (← embed D v.value (Environment.proper (v.env.embedding? env)))) (unit env.space))
  return ⟨manager, env, value⟩

def meetAll (manager : Nat) (env : Environment) (vs : List (AbstractValue V)) :
    Managed (AbstractValue V) :=
  combineAll D .meetAll D.top D.meet manager env vs

def joinAll (manager : Nat) (env : Environment) (vs : List (AbstractValue V)) :
    Managed (AbstractValue V) :=
  combineAll D .joinAll D.bottom D.join manager env vs

def meetEach (manager : Nat) (env : Environment) (vs : List (AbstractValue V)) :
    Managed (AbstractValue V) := do
  vs.foldlM (meet D) (← top D manager env)

def joinEach (manager : Nat) (env : Environment) (vs : List (AbstractValue V)) :
    Managed (AbstractValue V) := do
  vs.foldlM (join D) (← bottom D manager env)

/-! ### Transfer functions -/

def distinctDimensions (env : Environment) :
    List String → List Nat → Except Failure (List Nat)
  | [], _ => .ok []
  | v :: vs, seen => do
    let d ← env.dimension v
    if seen.contains d then .error (.duplicateVariable v)
    else return d :: (← distinctDimensions env vs (d :: seen))

/-- Runs a simultaneous transfer function in the least environment that contains those of
the value and of all expressions. -/
def transfer {α : Type} [Dimensional α] (id : OperationId) (f : V → List Nat → List α → Op V)
    (a : AbstractValue V) (vars : List String) (es : List (Scoped α)) :
    Managed (AbstractValue V) := do
  if vars.length ≠ es.length then throw (.arityMismatch vars.length es.length)
  else
    let env ← attempt (es.foldlM (fun env e => env.union e.env) a.env)
    let dims ← attempt (distinctDimensions env vars [])
    let moved ← attempt (es.mapM (·.extend env))
    let value ← perform id do
      f (← embed D a.value (Environment.proper (a.env.embedding? env))) dims
        (moved.map (·.item))
    return ⟨a.manager, env, value⟩

def assignForms (a : AbstractValue V) (vars : List String) (es : List (Scoped LinearForm)) :
    Managed (AbstractValue V) :=
  transfer D .assignForms D.assignForms a vars es

def assignTerms (a : AbstractValue V) (vars : List String) (es : List (Scoped Term)) :
    Managed (AbstractValue V) :=
  transfer D .assignTerms D.assignTerms a vars es

def substituteForms (a : AbstractValue V) (vars : List String)
    (es : List (Scoped LinearForm)) : Managed (AbstractValue V) :=
  transfer D .substituteForms D.substituteForms a vars es

def substituteTerms (a : AbstractValue V) (vars : List String) (es : List (Scoped Term)) :
    Managed (AbstractValue V) :=
  transfer D .substituteTerms D.substituteTerms a vars es

def forget (a : AbstractValue V) (vars : List String) (project : Bool) :
    Managed (AbstractValue V) := do
  let dims ← attempt (vars.mapM a.env.dimension)
  let sorted := (List.range a.env.size).filter dims.contains
  return { a with value := ← perform .forget (D.forget a.value sorted project) }

/-! ### Environments -/

def firstConstrained? (v : V) : List Nat → Op (Option Nat)
  | [] => return none
  | d :: ds => do if ← D.isFree v d then firstConstrained? v ds else return some d

def changeEnvironment (a : AbstractValue V) (env : Environment) (project : Bool) :
    Managed (AbstractValue V) := do
  let change ← attempt (a.env.transfer env)
  let union ← attempt (a.env.union env)
  let result : Except Nat V ← perform .changeEnvironment do
    let v ← embed D a.value change.add
    match change.remove with
    | none => return .ok v
    | some c =>
      match ← (if project then return none else firstConstrained? D v c.dims) with
      | some d => return .error d
      | none => return .ok (← D.removeDimensions v c)
  match result with
  | .ok v => return ⟨a.manager, env, v⟩
  | .error d => throw (.constrainedVariable (union.dimensionName d))

def rename (a : AbstractValue V) (old new : List String) : Managed (AbstractValue V) := do
  let (env, p) ← attempt (a.env.rename old new)
  return ⟨a.manager, env, ← perform .rename (D.permuteDimensions a.value p)⟩

def minimizeEnvironment (a : AbstractValue V) : Managed (AbstractValue V) := do
  let (env, v) ← perform .changeEnvironment do
    let free ← (List.range a.env.size).filterM (D.isFree a.value)
    if free.isEmpty then return (a.env, a.value)
    else if ← D.isBottom a.value then return (a.env, a.value)
    else
      let env ← Op.ofExcept (a.env.remove (free.filterMap a.env.var?))
      return (env, ← D.removeDimensions a.value (a.env.removal env))
  return ⟨a.manager, env, v⟩

end AbstractValue

end Enclosure
