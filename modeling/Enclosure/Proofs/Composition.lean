import Enclosure.Proofs.Constructions

/-!
# How operations are put together

Every operation of a relational domain is a sequence of checked values, reports and tests of sizes.
-/

namespace Enclosure

open DomainCore

namespace Op

section

variable {α β : Type} {op : Op α} {f : α → Op β} {p : α → Op Bool}

class inductive Composed : {α : Type} → Op α → Prop
  | ofExcept {α : Type} (x : Except Failure α) : Composed (ofExcept x)
  | markInexact : Composed markInexact
  | raise (condition : Condition) (note : String) : Composed (raise condition note)
  | exceedsSize (size : Nat) : Composed (exceedsSize size)
  | andThen {α β : Type} {op : Op α} {f : α → Op β} (first : Composed op)
      (next : ∀ a, Composed (f a)) : Composed (op >>= f)

namespace Composed

attribute [instance] ofExcept markInexact raise exceedsSize

instance bind [Composed op] [∀ a, Composed (f a)] : Composed (op >>= f) := .andThen ‹_› ‹_›

instance pure (a : α) : Composed (pure a : Op α) := .ofExcept (.ok a)

instance fail (f : Failure) : Composed (fail f : Op α) := .ofExcept (.error f)

instance ite {p : Prop} [Decidable p] {x y : Op α} [Composed x] [Composed y] :
    Composed (if p then x else y) := by
  split <;> assumption

theorem markInexactIf {p : Prop} [Decidable p] {f : Unit → Op α} (h : Composed (f ())) :
    Composed (if p then Op.markInexact >>= f else f ()) := by
  split
  · exact .andThen .markInexact fun _ => h
  · exact h

instance mapM [∀ x, Composed (f x)] (xs : List α) : Composed (xs.mapM f) := by
  induction xs with
  | nil => exact .pure _
  | cons x xs ih =>
    rw [List.mapM_cons]
    infer_instance

instance foldlM {f : β → α → Op β} [∀ b x, Composed (f b x)] (xs : List α) (b : β) :
    Composed (xs.foldlM f b) := by
  induction xs generalizing b with
  | nil => exact .pure b
  | cons x xs ih =>
    rw [List.foldlM_cons]
    infer_instance

instance allM [∀ x, Composed (p x)] (xs : List α) : Composed (xs.allM p) := by
  induction xs with
  | nil => exact .pure _
  | cons x xs ih =>
    refine .andThen inferInstance fun answer => ?_
    cases answer with
    | true => exact ih
    | false => exact .pure _

instance anyM [∀ x, Composed (p x)] (xs : List α) : Composed (xs.anyM p) := by
  induction xs with
  | nil => exact .pure _
  | cons x xs ih =>
    refine .andThen inferInstance fun answer => ?_
    cases answer with
    | true => exact .pure _
    | false => exact ih

instance filterM [∀ x, Composed (p x)] (xs : List α) : Composed (xs.filterM p) := by
  have collects (acc : List α) : Composed (xs.filterAuxM p acc) := by
    induction xs generalizing acc with
    | nil => exact .pure _
    | cons x xs ih => exact .andThen inferInstance fun answer => ih _
  exact .andThen (collects []) inferInstance

end Composed

end

/-! ### What the steps do to a report -/

variable {request : Request} {before : Report}

theorem run_raise (condition : Condition) (note : String) :
    (raise condition note).run request before =
      if request.aborts.contains condition then .error (.aborted condition request.operation note)
      else .ok ((), ⟨false, false, before.incidents ++ [⟨condition, request.operation, note⟩]⟩) := by
  change (if _ then _ else _ : Op Unit) request before = _
  split
  · rfl
  · rfl

theorem run_exceedsSize (size : Nat) :
    (exceedsSize size).run request before =
      if 0 < request.options.maxObjectSize ∧ request.options.maxObjectSize < size then
        (raise .outOfSpace ("object of size " ++ toString size ++ " over the limit") >>=
          fun _ => pure true : Op Bool).run request before
      else .ok (false, before) := by
  change (if _ then _ else _ : Op Bool) request before = _
  split
  · rfl
  · rfl

end Op

namespace Report

/-- Nothing is taken back of what the first report says against the result. -/
structure Extends (after before : Report) : Prop where
  exact : after.exact = true → before.exact = true
  best : after.best = true → before.best = true
  incidents : before.incidents ⊆ after.incidents

variable {before between after : Report}

theorem Extends.refl (report : Report) : report.Extends report := ⟨id, id, .refl _⟩

theorem Extends.trans (h : after.Extends between) (h' : between.Extends before) :
    after.Extends before :=
  ⟨h'.exact ∘ h.exact, h'.best ∘ h.best, List.Subset.trans h'.incidents h.incidents⟩

end Report

namespace Op

variable {α : Type} {op : Op α} {request : Request} {a : α} {before after : Report}

theorem extends_of_raise {condition : Condition} {note : String} {u : Unit}
    (run : (raise condition note).run request before = .ok (u, after)) : after.Extends before := by
  rw [run_raise] at run
  split at run
  · cases run
  · cases run
    exact ⟨by simp, by simp, List.subset_append_left _ _⟩

theorem Composed.extends (h : Composed op) (run : op.run request before = .ok (a, after)) :
    after.Extends before := by
  induction h generalizing before after with
  | ofExcept x =>
    cases x with
    | error f => cases run
    | ok b =>
      cases run
      exact .refl _
  | markInexact =>
    cases run
    exact ⟨by simp, id, .refl _⟩
  | raise condition note => exact extends_of_raise run
  | exceedsSize size =>
    rw [run_exceedsSize] at run
    split at run
    · obtain ⟨u, _, first, rest⟩ := exists_run_of_bind run
      cases rest
      exact extends_of_raise first
    · cases run
      exact .refl _
  | andThen _ _ ih next =>
    obtain ⟨b, _, first, rest⟩ := exists_run_of_bind run
    exact (next b rest).trans (ih first)

end Op

/-! ### What every domain derives -/

instance LinearBound.composed_relax (c : LinearConstraint) (bounds : List Interval) (s : Space) :
    (relax c bounds s).Composed := by
  unfold relax
  split
  · infer_instance
  · refine .andThen inferInstance fun f => .markInexactIf (.andThen inferInstance fun cs? => ?_)
    split
    · infer_instance
    · dsimp only
      split <;> infer_instance

variable {V : Type}

class DomainCore.Composed (D : DomainCore V) : Prop where
  ofBox s is : (D.ofBox s is).Composed
  isBottom v : (D.isBottom v).Composed
  isTop v : (D.isTop v).Composed
  isLeq a b : (D.isLeq a b).Composed
  boundDimension v d : (D.boundDimension v d).Composed
  toBox v : (D.toBox v).Composed
  toLinear v : (D.toLinear v).Composed
  meet a b : (D.meet a b).Composed
  meetLinear v cs : (D.meetLinear v cs).Composed
  join a b : (D.join a b).Composed
  widening a b : (D.widening a b).Composed
  addDimensions v c project : (D.addDimensions v c project).Composed
  removeDimensions v c : (D.removeDimensions v c).Composed
  permuteDimensions v p : (D.permuteDimensions v p).Composed
  forget v dims project : (D.forget v dims project).Composed

class Domain.Composed (D : Domain V) : Prop extends DomainCore.Composed D.toDomainCore where
  boundForm v f : (D.boundForm v f).Composed
  assignForms v dims forms : (D.assignForms v dims forms).Composed
  assignTerms v dims ts : (D.assignTerms v dims ts).Composed

attribute [instance] DomainCore.Composed.ofBox DomainCore.Composed.isBottom
  Composed.isTop Composed.isLeq Composed.boundDimension
  Composed.toBox Composed.toLinear Composed.meet
  Composed.meetLinear Composed.join Composed.widening
  Composed.addDimensions Composed.removeDimensions
  Composed.permuteDimensions Composed.forget Domain.Composed.boundForm
  Domain.Composed.assignForms Domain.Composed.assignTerms

namespace DomainCore

variable (D : DomainCore V) [D.Composed] (v : V)

instance composed_linearizeAll (ts : List Term) : (D.linearizeAll v ts).Composed := by
  refine .andThen inferInstance fun bounds => @Op.Composed.mapM _ _ _ (fun t => ?_) ts
  split <;> infer_instance

instance composed_assignByFresh (dims : List Nat) (forms : List LinearForm) :
    (D.assignByFresh v dims forms).Composed := by
  unfold assignByFresh
  infer_instance

instance composed_assignLinearized (dims : List Nat) (ts : List Term) :
    (D.assignLinearized v dims ts).Composed := by
  unfold assignLinearized
  infer_instance

end DomainCore

namespace Domain

variable (D : Domain V) [D.Composed]

instance composed_satLinear (v : V) (c : LinearConstraint) : (D.satLinear v c).Composed := by
  unfold satLinear
  infer_instance

instance composed_boundTerm (v : V) (t : Term) : (D.boundTerm v t).Composed := by
  unfold boundTerm
  infer_instance

instance composed_substituteForms (v : V) (dims : List Nat) (forms : List LinearForm) :
    (D.substituteForms v dims forms).Composed := by
  unfold substituteForms
  infer_instance

end Domain

end Enclosure
