import Enclosure.Failure

/-!
# Running operations

An operation on abstract values never has to give up when it runs out of space or meets something it
cannot express: it returns a coarser result and reports that.
-/

namespace Enclosure

/-- What an operation is asked: its name, its options, and the conditions on which the
caller wants it to fail. -/
structure Request where
  operation : OperationId
  options : OperationOptions
  aborts : List Condition
  deriving DecidableEq

structure Report where
  exact : Bool
  best : Bool
  incidents : List Incident
  deriving DecidableEq

def Report.start : Report := ⟨true, true, []⟩

abbrev Op (α : Type) : Type := ReaderT Request (StateT Report (Except Failure)) α

namespace Op

def ofExcept {α : Type} (x : Except Failure α) : Op α := fun _ report =>
  match x with
  | .ok a => .ok (a, report)
  | .error f => .error f

def fail {α : Type} (f : Failure) : Op α := fun _ _ => .error f

def markInexact : Op Unit := modify fun report => { report with exact := false }

def markNotBest : Op Unit := modify fun report => { report with best := false }

def raise (condition : Condition) (note : String) : Op Unit := do
  let request ← read
  if request.aborts.contains condition then fail (.aborted condition request.operation note)
  else
    modify fun report =>
      ⟨false, false, report.incidents ++ [⟨condition, request.operation, note⟩]⟩

def exceedsSize (size : Nat) : Op Bool := do
  let request ← read
  let limit := request.options.maxObjectSize
  if 0 < limit ∧ limit < size then
    raise .outOfSpace ("object of size " ++ toString size ++ " over the limit")
    return true
  else return false

def timedOut : Op Bool := return false

def run {α : Type} (op : Op α) (request : Request) (report : Report) :
    Except Failure (α × Report) :=
  op request report

end Op

end Enclosure
