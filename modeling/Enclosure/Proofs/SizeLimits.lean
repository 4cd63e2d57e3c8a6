import Enclosure.Proofs.Octagon.Exactness
import Enclosure.Proofs.Polyhedron.Exactness

/-!
# Limits to sizes

An operation that finds an object too large goes on with less: it answers that nothing is known, or
keeps fewer rows, or none.
-/

namespace Enclosure

def Request.unlimited (request : Request) : Request :=
  { request with options := { request.options with maxObjectSize := 0 } }

/-- The report says that there was not enough space, and that the result is neither known to be
exact nor to be best. -/
structure Report.TellsOfSpace (report : Report) : Prop where
  recorded : ∃ incident ∈ report.incidents, incident.condition = .outOfSpace
  inexact : report.exact = false
  notBest : report.best = false

theorem Report.TellsOfSpace.of_extends {before after : Report} (told : before.TellsOfSpace)
    (h : after.Extends before) : after.TellsOfSpace where
  recorded := by
    obtain ⟨incident, mem, outOfSpace⟩ := told.recorded
    exact ⟨incident, h.incidents mem, outOfSpace⟩
  inexact := eq_false_of_ne_true fun exact => by simpa [told.inexact] using h.exact exact
  notBest := eq_false_of_ne_true fun best => by simpa [told.notBest] using h.best best

theorem Op.Composed.alike_or_told {α : Type} {op : Op α} (h : Composed op) (request : Request)
    (before : Report) :
    op.run request.unlimited before = op.run request before ∨
      ∀ a after, op.run request before = .ok (a, after) → after.TellsOfSpace := by
  induction h generalizing before with
  | ofExcept x => exact .inl rfl
  | markInexact => exact .inl rfl
  | raise condition note =>
    rw [run_raise, run_raise]
    exact .inl rfl
  | exceedsSize size =>
    rw [run_exceedsSize, run_exceedsSize, if_neg (by simp [Request.unlimited])]
    split
    · refine .inr fun a after run => ?_
      obtain ⟨u, between, first, rest⟩ := exists_run_of_bind run
      cases rest
      rw [run_raise] at first
      split at first
      · cases first
      · cases first
        exact ⟨⟨_, List.mem_concat_self, rfl⟩, rfl, rfl⟩
    · exact .inl rfl
  | @andThen _ _ op f _ next ih ih' =>
    rcases ih before with alike | told
    · cases run : op.run request before with
      | error e =>
        left
        change (op.run _ before >>= _) = (op.run _ before >>= _)
        rw [alike, run]
        rfl
      | ok r =>
        rw [run_bind run, run_bind (alike.trans run)]
        exact ih' r.1 r.2
    · -- What follows cannot take back that space ran out.
      refine .inr fun b after run => ?_
      obtain ⟨a, between, ran, rest⟩ := exists_run_of_bind run
      exact (told a between ran).of_extends ((next a).extends rest)

namespace Domain

variable {V : Type}

/-- The operations that a domain offers: those that build values, and the queries. -/
inductive Offers (D : Domain V) : {α : Type} → Op α → Prop
  | construction (c : Construction V) : Offers D (c.perform D)
  | isBottom (v : V) : Offers D (D.isBottom v)
  | isTop (v : V) : Offers D (D.isTop v)
  | isLeq (a b : V) : Offers D (D.isLeq a b)
  | isEq (a b : V) : Offers D (D.isEq a b)
  | isFree (v : V) (d : Nat) : Offers D (D.isFree v d)
  | satInterval (v : V) (d : Nat) (i : Interval) : Offers D (D.satInterval v d i)
  | satLinear (v : V) (c : LinearConstraint) : Offers D (D.satLinear v c)
  | satTerm (v : V) (c : TermConstraint) : Offers D (D.satTerm v c)
  | boundDimension (v : V) (d : Nat) : Offers D (D.boundDimension v d)
  | boundForm (v : V) (f : LinearForm) : Offers D (D.boundForm v f)
  | boundTerm (v : V) (t : Term) : Offers D (D.boundTerm v t)
  | toBox (v : V) : Offers D (D.toBox v)
  | toLinear (v : V) : Offers D (D.toLinear v)
  | linearizeAll (v : V) (ts : List Term) : Offers D (D.linearizeAll v ts)

variable {D : Domain V} [D.Composed]

theorem composed_perform (c : Construction V) : (c.perform D).Composed := by
  cases c with
  | meetTerms v cs =>
    unfold Construction.perform meetTerms
    infer_instance
  | wideningThreshold a b thresholds =>
    unfold Construction.perform wideningThreshold
    infer_instance
  | substituteTerms v dims ts =>
    unfold Construction.perform substituteTerms
    infer_instance
  | _ =>
    unfold Construction.perform
    infer_instance

theorem composed_of_offers {α : Type} {op : Op α} (offered : D.Offers op) : op.Composed := by
  cases offered with
  | construction c => exact composed_perform c
  | isEq a b =>
    unfold isEq
    infer_instance
  | isFree v d =>
    unfold isFree
    infer_instance
  | satInterval v d i =>
    unfold satInterval
    infer_instance
  | satTerm v c =>
    unfold satTerm
    infer_instance
  | _ => infer_instance

end Domain

/-- Limits are transparent unless they are reported. -/
theorem limit_told_or_transparent {α : Type} {op : Op α}
    (offered : Octagon.domain.Offers op ∨ ∃ strict, (Polyhedron.domain strict).Offers op)
    {request : Request} {before after : Report} {a : α}
    (run : op.run request before = .ok (a, after)) :
    (after.incidents = [] → op.run request.unlimited before = .ok (a, after)) ∧
      ((∀ later, op.run request.unlimited before ≠ .ok (a, later)) → after.TellsOfSpace) := by
  have composed : op.Composed := by
    rcases offered with offered | ⟨strict, offered⟩
    · exact Domain.composed_of_offers offered
    · exact Domain.composed_of_offers offered
  rcases composed.alike_or_told request before with alike | told
  · rw [alike, run]
    exact ⟨fun _ => rfl, fun differs => absurd rfl (differs after)⟩
  · have tells := told a after run
    refine ⟨fun none => ?_, fun _ => tells⟩
    obtain ⟨incident, mem, -⟩ := tells.recorded
    simp [none] at mem

/-- Without a limit there is still no point after a dimension was added to no point. -/
theorem limited_addDimensions_told :
    ∃ after, (Octagon.domain.addDimensions (.bottom ⟨0, 1⟩) (.append 1 1) false).run
        ⟨.changeEnvironment, ⟨0, 0, 3, false, false⟩, []⟩ .start = .ok (.top ⟨0, 2⟩, after) ∧
      after.TellsOfSpace := by
  let growth : Construction Octagon := .addDimensions (.bottom ⟨0, 1⟩) (.append 1 1) false
  obtain ⟨after, run⟩ : ∃ after, (growth.perform Octagon.domain).run
      ⟨.changeEnvironment, ⟨0, 0, 3, false, false⟩, []⟩ .start = .ok (.top ⟨0, 2⟩, after) := ⟨_, rfl⟩
  refine ⟨after, run, (limit_told_or_transparent (.inl (.construction growth)) run).2 ?_⟩
  intro later same
  cases same

end Enclosure
