import Enclosure.Domain

/-!
# Managers

A manager keeps the options of every operation and what the last operations reported.
-/

namespace Enclosure

structure Manager where
  options : OperationId → OperationOptions
  aborts : List Condition
  preferredKind : Kind
  condition : Condition
  exact : Bool
  best : Bool
  log : List Incident

namespace Manager

def start : Manager := ⟨fun _ => .standard, [], .double, .none, true, true, []⟩

def setOptions (m : Manager) (id : OperationId) (o : OperationOptions) : Manager :=
  { m with options := fun i => if i = id then o else m.options i }

def setAbort (m : Manager) (c : Condition) (on : Bool) : Manager :=
  { m with aborts := (if on then [c] else []) ++ m.aborts.filter (· ≠ c) }

def clearLog (m : Manager) : Manager := { m with log := [], condition := .none }

def request (m : Manager) (id : OperationId) : Request := ⟨id, m.options id, m.aborts⟩

def publish (m : Manager) (r : Report) : Manager :=
  { m with
    condition := (r.incidents.getLast?.map (·.condition)).getD .none
    exact := r.exact
    best := r.best
    log := m.log ++ r.incidents }

end Manager

def Domain.managerLabel {V : Type} (D : Domain V) : String :=
  "Manager(" ++ D.library ++ " " ++ version ++ ")"

abbrev Managed (α : Type) : Type := ExceptT Failure (StateM Manager) α

namespace Managed

variable {α : Type}

def attempt (x : Except Failure α) : Managed α := fun m => (x, m)

def perform (id : OperationId) (op : Op α) : Managed α := fun m =>
  match op.run (m.request id) .start with
  | .ok (a, report) => (.ok a, m.publish report)
  | .error failure => (.error failure, m)

end Managed

end Enclosure
