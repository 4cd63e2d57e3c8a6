import Enclosure.Op
import Mathlib.Control.Lawful
import Mathlib.Data.List.Basic

/-!
# What an operation guarantees

An operation answers under a request and from any report.
-/

namespace Enclosure

open List

def Request.Limited (request : Request) : Prop := 0 < request.options.maxObjectSize

namespace Op

variable {α β : Type} {request : Request} {risk : Prop} {op : Op α} {post mid : α → Prop}
  {report after : Report} {p : α → Op Bool} {yes : α → Prop} {x : Except Failure α} {a : α}
  {f : α → Op β} {weaker : α → Prop}

/-- The operation returns with the postcondition, or is aborted for the risk on a condition that
the request aborts on. -/
def Ensures (request : Request) (risk : Prop) (op : Op α) (post : α → Prop) : Prop :=
  ∀ report,
    (∃ a after, op.run request report = .ok (a, after) ∧ post a) ∨
      risk ∧ ∃ condition ∈ request.aborts, ∃ note,
        op.run request report = .error (.aborted condition request.operation note)

/-- From any report the operation returns a value with the postcondition. -/
def Returns (request : Request) (op : Op α) (post : α → Prop) : Prop :=
  ∀ report, ∃ a after, op.run request report = .ok (a, after) ∧ post a

theorem Ensures.returns (safe : ¬ risk) (h : Ensures request risk op post) :
    Returns request op post := by
  intro report
  rcases h report with returned | ⟨danger, -⟩
  · exact returned
  · exact absurd danger safe

theorem Ensures.returns_of_noAborts (none : request.aborts = [])
    (h : Ensures request risk op post) : Returns request op post := by
  intro report
  rcases h report with returned | ⟨-, _, asked, -⟩
  · exact returned
  · simp [none] at asked

section

variable (h : Ensures request risk op post)
include h

theorem Ensures.weaken {more : Prop} (imp : risk → more) : Ensures request more op post := by
  intro report
  rcases h report with returned | ⟨danger, aborted⟩
  · exact .inl returned
  · exact .inr ⟨imp danger, aborted⟩

theorem Ensures.mono (imp : ∀ a, post a → weaker a) : Ensures request risk op weaker := by
  intro report
  rcases h report with ⟨a, after, run, holds⟩ | aborted
  · exact .inl ⟨a, after, run, imp a holds⟩
  · exact .inr aborted

theorem Ensures.and (h' : Ensures request risk op mid) :
    Ensures request risk op fun a => post a ∧ mid a := by
  intro report
  rcases h report with ⟨a, after, run, holds⟩ | aborted
  · rcases h' report with ⟨b, _, run', holds'⟩ | ⟨-, _, -, _, run'⟩
    · rw [run] at run'
      cases run'
      exact .inl ⟨a, after, run, holds, holds'⟩
    · rw [run] at run'
      exact absurd run' (by simp)
  · exact .inr aborted

end

theorem Returns.mono (h : Returns request op post) (imp : ∀ a, post a → weaker a) :
    Returns request op weaker := by
  intro report
  obtain ⟨a, after, run, holds⟩ := h report
  exact ⟨a, after, run, imp a holds⟩

theorem Ensures.of_run (h : Ensures request risk op post)
    (run : op.run request report = .ok (a, after)) : post a := by
  rcases h report with ⟨b, _, same, holds⟩ | ⟨-, _, -, _, aborted⟩
  · rw [run] at same
    cases same
    exact holds
  · rw [run] at aborted
    exact absurd aborted (by simp)

theorem exists_run_of_any {p : α → Bool}
    (h : (op.run request report).toOption.any (fun r => p r.1) = true) :
    ∃ a after, op.run request report = .ok (a, after) ∧ p a = true := by
  cases run : op.run request report with
  | error e => simp [run, Except.toOption] at h
  | ok r => exact ⟨r.1, r.2, rfl, by simpa [run, Except.toOption] using h⟩

theorem Returns.ensures (h : Returns request op post) : Ensures request risk op post :=
  fun report => .inl (h report)

theorem Returns.of_run (h : Returns request op post)
    (run : op.run request report = .ok (a, after)) : post a :=
  Ensures.of_run (h.ensures : Ensures request False op post) run

theorem Returns.of_any [DecidableEq α] (h : Returns request op post)
    (found : (op.run request .start).toOption.any (fun r => decide (r.1 = a)) = true) : post a := by
  obtain ⟨b, _, run, same⟩ := exists_run_of_any (p := fun b => decide (b = a)) found
  exact of_decide_eq_true same ▸ h.of_run run

theorem ensures_pure (holds : post a) : Ensures request risk (pure a : Op α) post :=
  fun report => .inl ⟨a, report, rfl, holds⟩

theorem returns_pure (holds : post a) : Returns request (pure a) post :=
  fun report => ⟨a, report, rfl, holds⟩

theorem run_bind (run : op.run request report = .ok (a, after)) :
    (op >>= f).run request report = (f a).run request after := by
  change (op request report >>= fun p => f p.1 request p.2) = _
  rw [show op request report = .ok (a, after) from run]
  rfl

theorem Ensures.bind {post : β → Prop} (h : Ensures request risk op mid)
    (next : ∀ a, mid a → Ensures request risk (f a) post) :
    Ensures request risk (op >>= f) post := by
  intro report
  rcases h report with ⟨a, after, run, holds⟩ | ⟨danger, condition, asked, note, run⟩
  · rw [run_bind run]
    exact next a holds after
  · refine .inr ⟨danger, condition, asked, note, ?_⟩
    change (op request report >>= fun p => f p.1 request p.2) = _
    rw [show op request report = _ from run]
    rfl

theorem ensures_ofExcept (ok : x = .ok a) (holds : post a) :
    Ensures request risk (ofExcept x) post := by
  subst ok
  exact fun report => .inl ⟨a, report, rfl, holds⟩

theorem Ensures.ofExceptBind {post : β → Prop} (ok : x = .ok a)
    (h : Ensures request risk (f a) post) : Ensures request risk (ofExcept x >>= f) post := by
  subst ok
  exact h

theorem Ensures.markInexactBind {f : Unit → Op α} (h : Ensures request risk (f ()) post) :
    Ensures request risk (markInexact >>= f) post :=
  fun report => h { report with exact := false }

theorem Ensures.markInexactIf {p : Prop} [Decidable p] {f : Unit → Op α}
    (h : Ensures request risk (f ()) post) :
    Ensures request risk (if p then markInexact >>= f else f ()) post := by
  split
  · exact h.markInexactBind
  · exact h

/-- Returns a value, with a report that is not exact if the value is not. -/
def answer (inexact : Bool) (a : α) : Op α :=
  if inexact then markInexact >>= fun _ => pure a else pure a

theorem answer_map (p : Bool) (a : α) (f : α → β) :
    (answer p a >>= fun a => pure (f a)) = answer p (f a) := by
  cases p <;> rfl

theorem markInexact_answer (p : Bool) (a : α) :
    (markInexact >>= fun _ => answer p a) = answer true a := by
  cases p <;> rfl

theorem answer_bind (p q : Bool) (a : α) (f : α → β) :
    (answer p a >>= fun a => answer q (f a)) = answer (p || q) (f a) := by
  cases p <;> cases q <;> rfl

theorem Ensures.readBind {f : Request → Op α} (h : Ensures request risk (f request) post) :
    Ensures request risk (read >>= f) post :=
  h

theorem ensures_raise {post : Unit → Prop} (danger : risk) (condition : Condition)
    (note : String) (holds : post ()) : Ensures request risk (raise condition note) post := by
  refine .readBind ?_
  split
  · rename_i asked
    exact fun _ => .inr ⟨danger, condition, by simpa using asked, note, rfl⟩
  · exact fun _ => .inl ⟨(), _, rfl, holds⟩

theorem ensures_exceedsSize (size : Nat) :
    Ensures request request.Limited (exceedsSize size) fun tooLarge =>
      tooLarge = true → request.Limited := by
  refine .readBind ?_
  dsimp only
  split
  · rename_i large
    refine .bind
      (ensures_raise large.1 _ _ trivial : Ensures request request.Limited _ fun _ => True) ?_
    exact fun _ _ => ensures_pure fun _ => large.1
  · exact ensures_pure (by simp)

/-! ### Lists -/

theorem ensures_mapM {rel : α → β → Prop} (xs : List α)
    (step : ∀ x ∈ xs, Ensures request risk (f x) (rel x)) :
    Ensures request risk (xs.mapM f) (Forall₂ rel xs) := by
  induction xs with
  | nil => exact ensures_pure .nil
  | cons x xs ih =>
    rw [mapM_cons]
    refine (step x (by simp)).bind fun y hy => ?_
    refine (ih fun z hz => step z (by simp [hz])).bind fun ys hys => ?_
    exact ensures_pure (.cons hy hys)

theorem ensures_allM {yes no : α → Prop} (xs : List α)
    (step : ∀ x ∈ xs, Ensures request risk (p x) fun b => (b = true → yes x) ∧ (b = false → no x)) :
    Ensures request risk (xs.allM p) fun b =>
      (b = true → ∀ x ∈ xs, yes x) ∧ (b = false → ∃ x ∈ xs, no x) := by
  induction xs with
  | nil => exact ensures_pure (by simp)
  | cons x xs ih =>
    refine (step x (by simp)).bind fun b hb => ?_
    cases b with
    | false => exact ensures_pure ⟨by simp, fun _ => ⟨x, by simp, hb.2 rfl⟩⟩
    | true =>
      refine (ih fun z hz => step z (by simp [hz])).mono fun c hc => ⟨fun h => ?_, fun h => ?_⟩
      · simpa using ⟨hb.1 rfl, hc.1 h⟩
      · obtain ⟨z, hz, bad⟩ := hc.2 h
        exact ⟨z, by simp [hz], bad⟩

theorem ensures_exists_anyM (xs : List α)
    (step : ∀ x ∈ xs, Ensures request risk (p x) fun b => b = true → yes x) :
    Ensures request risk (xs.anyM p) fun b => b = true → ∃ x ∈ xs, yes x := by
  induction xs with
  | nil => exact ensures_pure (by simp)
  | cons x xs ih =>
    refine (step x (by simp)).bind fun b hb => ?_
    cases b with
    | true => exact ensures_pure fun _ => ⟨x, by simp, hb rfl⟩
    | false =>
      refine (ih fun z hz => step z (by simp [hz])).mono fun c hc h => ?_
      obtain ⟨z, hz, good⟩ := hc h
      exact ⟨z, by simp [hz], good⟩

private theorem ensures_filterAuxM (xs acc : List α)
    (step : ∀ x ∈ xs, Ensures request risk (p x) fun b => b = true → yes x) :
    Ensures request risk (xs.filterAuxM p acc) fun ys =>
      ∀ y ∈ ys, y ∈ acc ∨ (y ∈ xs ∧ yes y) := by
  induction xs generalizing acc with
  | nil => exact ensures_pure fun y hy => .inl hy
  | cons x xs ih =>
    refine (step x (by simp)).bind fun b hb => ?_
    refine (ih _ fun z hz => step z (by simp [hz])).mono fun ys hys y hy => ?_
    rcases hys y hy with inAcc | ⟨inRest, good⟩
    · cases b with
      | false => exact .inl inAcc
      | true =>
        rcases mem_cons.1 inAcc with rfl | old
        · exact .inr ⟨by simp, hb rfl⟩
        · exact .inl old
    · exact .inr ⟨by simp [inRest], good⟩

theorem ensures_filterM (xs : List α)
    (step : ∀ x ∈ xs, Ensures request risk (p x) fun b => b = true → yes x) :
    Ensures request risk (xs.filterM p) fun ys => ∀ y ∈ ys, y ∈ xs ∧ yes y := by
  refine (ensures_filterAuxM xs [] step).bind fun ys hys => ensures_pure fun y hy => ?_
  simpa using hys y (by simpa using hy)

theorem ensures_filterM_eq {q : α → Bool} (xs : List α)
    (step : ∀ x ∈ xs, Ensures request risk (p x) (· = q x)) :
    Ensures request risk (xs.filterM p) (· = xs.filter q) := by
  have collects (acc : List α) :
      Ensures request risk (xs.filterAuxM p acc) (· = (xs.filter q).reverse ++ acc) := by
    induction xs generalizing acc with
    | nil => exact ensures_pure rfl
    | cons x xs ih =>
      obtain ⟨first, rest⟩ := forall_mem_cons.1 step
      refine first.bind fun b same => (ih rest _).mono fun ys found => ?_
      subst same found
      cases kept : q x <;> simp [kept]
  exact (collects []).bind fun ys found => ensures_pure (by simp [found])

theorem ensures_foldlM {f : β → α → Op β} {inv : β → Prop} (xs : List α) (b : β) (start : inv b)
    (step : ∀ b, ∀ x ∈ xs, inv b → Ensures request risk (f b x) inv) :
    Ensures request risk (xs.foldlM f b) inv := by
  induction xs generalizing b with
  | nil => exact ensures_pure start
  | cons x xs ih =>
    refine (step b x (by simp) start).bind fun c hc => ?_
    exact ih c hc fun d z hz => step d z (by simp [hz])

end Op

end Enclosure
