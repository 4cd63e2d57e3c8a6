import Enclosure.Proofs.Composition

/-!
# Exact reports

An operation that may have included more than the exact result says so in its report, and nothing
that follows takes that back.
-/

namespace Enclosure

namespace Op

variable {α β : Type} {request : Request} {op : Op α} {always post mid : α → Prop} {f : α → Op β}
  {x : Except Failure α} {a : α} {weaker : α → Prop}

def Reports (request : Request) (op : Op α) (always post : α → Prop) : Prop :=
  ∀ before, ∃ a after, op.run request before = .ok (a, after) ∧ always a ∧
    (after.exact = true → before.exact = true ∧ post a)

def Exactly (op : Op α) (post : α → Prop) : Prop :=
  ∀ request before a after, op.run request before = .ok (a, after) → after.exact = true →
    before.exact = true ∧ post a

abbrev NeverRegains (op : Op α) : Prop := Exactly op fun _ => True

/-- The operation returns a value, which has a property if the report is exact afterwards. -/
def Honest (request : Request) (op : Op α) (post : α → Prop) : Prop :=
  ∀ before, ∃ a after, op.run request before = .ok (a, after) ∧ (after.exact = true → post a)

def Settles (request : Request) (op : Op α) (post : α → Prop) : Prop :=
  ∃ x, (∀ before, op.run request before = (ofExcept x : Op α).run request before) ∧
    ∀ a, x = .ok a → post a

/-! ### What an exact report adds -/

theorem Reports.mono {always' post' : α → Prop} (h : Reports request op always post)
    (imp : ∀ a, always a → always' a) (imp' : ∀ a, always a → post a → post' a) :
    Reports request op always' post' := by
  intro before
  obtain ⟨a, after, run, holds, exact⟩ := h before
  exact ⟨a, after, run, imp a holds, fun e => ⟨(exact e).1, imp' a holds (exact e).2⟩⟩

theorem Reports.and_yields (h : Reports request op always post) (h' : Yields op mid) :
    Reports request op (fun a => always a ∧ mid a) post := by
  intro before
  obtain ⟨a, after, run, holds, exact⟩ := h before
  exact ⟨a, after, run, ⟨holds, h' request before a after run⟩, exact⟩

theorem reports_pure (holds : always a) (exact : post a) :
    Reports request (pure a : Op α) always post :=
  fun before => ⟨a, before, rfl, holds, fun e => ⟨e, exact⟩⟩

theorem Reports.bind {always' post : β → Prop} (h : Reports request op always mid)
    (next : ∀ a, always a → Reports request (f a) always' fun b => mid a → post b) :
    Reports request (op >>= f) always' post := by
  intro before
  obtain ⟨a, between, run, holds, first⟩ := h before
  obtain ⟨b, after, run', holds', second⟩ := next a holds between
  refine ⟨b, after, (run_bind run).trans run', holds', fun exact => ?_⟩
  obtain ⟨still, imp⟩ := second exact
  obtain ⟨start, good⟩ := first still
  exact ⟨start, imp good⟩

theorem Reports.ofExceptBind {always post : β → Prop} (ok : x = .ok a)
    (h : Reports request (f a) always post) : Reports request (ofExcept x >>= f) always post := by
  subst ok
  exact h

theorem reports_ofExcept (ok : x = .ok a) (holds : always a) (exact : post a) :
    Reports request (ofExcept x) always post := by
  subst ok
  exact reports_pure holds exact

theorem Reports.markInexactBind {f : Unit → Op α}
    (h : Reports request (f ()) always fun _ => True) :
    Reports request (markInexact >>= f) always post := by
  intro before
  obtain ⟨a, after, run, holds, exact⟩ := h { before with exact := false }
  exact ⟨a, after, run, holds, fun e => absurd (exact e).1 Bool.false_ne_true⟩

theorem Reports.markInexactIf {p : Prop} [Decidable p] {f : Unit → Op α}
    (h : Reports request (f ()) always fun a => ¬ p → post a) :
    Reports request (if p then markInexact >>= f else f ()) always post := by
  split
  · exact .markInexactBind (h.mono (fun _ holds => holds) fun _ _ _ => trivial)
  · rename_i not
    exact h.mono (fun _ holds => holds) fun _ _ exact => exact not

/-! ### Values under an exact report -/

theorem Yields.exactly (h : Yields op post) (never : NeverRegains op) : Exactly op post :=
  fun request before a after run exact =>
    ⟨(never request before a after run exact).1, h request before a after run⟩

theorem Exactly.mono (h : Exactly op post) (imp : ∀ a, post a → weaker a) : Exactly op weaker :=
  fun request before a after run exact =>
    (h request before a after run exact).imp_right (imp a)

theorem exactly_pure (holds : post a) : Exactly (pure a : Op α) post := by
  intro request before b after run exact
  cases run
  exact ⟨exact, holds⟩

theorem exactly_fail (f : Failure) : Exactly (fail f : Op α) post := by
  intro request before a after run
  cases run

theorem exactly_ofExcept (holds : ∀ a, x = .ok a → post a) : Exactly (ofExcept x) post := by
  cases x with
  | error f => exact exactly_fail f
  | ok a => exact exactly_pure (holds a rfl)

theorem Exactly.bind {post : β → Prop} (h : Exactly op mid)
    (next : ∀ a, Exactly (f a) fun b => mid a → post b) : Exactly (op >>= f) post := by
  intro request before b after run exact
  obtain ⟨a, between, first, rest⟩ := exists_run_of_bind run
  obtain ⟨still, imp⟩ := next a request between b after rest exact
  obtain ⟨start, good⟩ := h request before a between first still
  exact ⟨start, imp good⟩

theorem exactly_markInexactBind {f : Unit → Op α} (never : NeverRegains (f ())) :
    Exactly (markInexact >>= f) post := by
  have lost : Exactly markInexact fun _ => False := by
    intro request before a after run exact
    cases run
    cases exact
  exact lost.bind fun _ => never.mono fun _ _ impossible => impossible.elim

theorem exactly_markInexactIf {p : Prop} [Decidable p] {f : Unit → Op α}
    (h : Exactly (f ()) fun a => ¬ p → post a) :
    Exactly (if p then markInexact >>= f else f ()) post := by
  split
  · exact exactly_markInexactBind (h.mono fun _ _ => trivial)
  · rename_i not
    exact h.mono fun _ holds => holds not

theorem exactly_read {f : Request → Op α} (next : ∀ r, Exactly (f r) post) :
    Exactly (read >>= f) post :=
  fun request before a after run => next request request before a after run

theorem neverRegains (op : Op α) [composed : Composed op] : NeverRegains op :=
  fun _ _ _ _ run exact => ⟨(composed.extends run).exact exact, trivial⟩

theorem Reports.returns (h : Reports request op always post) : Returns request op always := by
  intro before
  obtain ⟨a, after, run, holds, -⟩ := h before
  exact ⟨a, after, run, holds⟩

theorem Returns.reports (h : Returns request op always) (exactly : Exactly op post) :
    Reports request op always post := by
  intro before
  obtain ⟨a, after, run, holds⟩ := h before
  exact ⟨a, after, run, holds, exactly request before a after run⟩

theorem reports_exceedsSize (free : ¬ request.Limited) (size : Nat) :
    Reports request (exceedsSize size) (fun tooLarge => tooLarge = false) fun _ => True := by
  have returns : Returns request _ _ := (ensures_exceedsSize size).returns free
  refine (returns.reports (neverRegains _)).mono (fun tooLarge limited => ?_) fun _ _ => id
  exact eq_false_of_ne_true fun large => free (limited large)

/-! ### Operations that report nothing -/

theorem settles_ofExcept (holds : ∀ a, x = .ok a → post a) : Settles request (ofExcept x) post :=
  ⟨x, fun _ => rfl, holds⟩

theorem settles_pure (holds : post a) : Settles request (pure a : Op α) post :=
  ⟨.ok a, fun _ => rfl, by rintro _ ⟨⟩; exact holds⟩

theorem Settles.bind {post : β → Prop} (h : Settles request op mid)
    (next : ∀ a, mid a → Settles request (f a) post) : Settles request (op >>= f) post := by
  obtain ⟨x, run, holds⟩ := h
  have step (before : Report) : (op >>= f).run request before =
      (ofExcept x >>= f).run request before := by
    change (op request before >>= fun p => f p.1 request p.2) = _
    rw [show op request before = _ from run before]
    rfl
  cases x with
  | error f => exact ⟨.error f, step, by simp⟩
  | ok a =>
    obtain ⟨y, next, holds'⟩ := next a (holds a rfl)
    exact ⟨y, fun before => (step before).trans (next before), holds'⟩

theorem Settles.readBind {f : Request → Op α} (h : Settles request (f request) post) :
    Settles request (read >>= f) post :=
  h

theorem Reports.returns_of_settles {any : α → Prop} (h : Reports request op always post)
    (settles : Settles request op any) : Returns request op fun a => always a ∧ post a := by
  obtain ⟨x, settled, -⟩ := settles
  obtain ⟨a, _, run, holds, exact⟩ := h .start
  rw [settled] at run
  cases x with
  | error f => cases run
  | ok b =>
    cases run
    exact fun before => ⟨a, before, settled before, holds, (exact rfl).2⟩

/-! ### Honest operations -/

theorem Reports.honest (h : Reports request op always post) :
    Honest request op fun a => always a ∧ post a := by
  intro before
  obtain ⟨a, after, run, holds, exact⟩ := h before
  exact ⟨a, after, run, fun e => ⟨holds, (exact e).2⟩⟩

theorem Returns.honest (h : Returns request op post) : Honest request op post := by
  intro before
  obtain ⟨a, after, run, holds⟩ := h before
  exact ⟨a, after, run, fun _ => holds⟩

theorem Honest.mono (h : Honest request op post) (imp : ∀ a, post a → weaker a) :
    Honest request op weaker := by
  intro before
  obtain ⟨a, after, run, exact⟩ := h before
  exact ⟨a, after, run, fun e => imp a (exact e)⟩

theorem Honest.of_any [DecidableEq α] (h : Honest request op post)
    (found : (op.run request .start).toOption.any (fun r => r.2.exact && decide (r.1 = a)) = true) :
    post a := by
  obtain ⟨b, _, run, holds⟩ := h .start
  simp only [run, Except.toOption, Option.any_some, Bool.and_eq_true, decide_eq_true_eq] at found
  exact found.2 ▸ holds found.1

end Op

/-! ### Honest domains -/

section Domains

variable {V : Type}

/-- With an exact report, a value that was met with constraints has those of its points that satisfy
all of them. -/
def DomainCore.MeetsHonestly (D : DomainCore V) (formed : V → Prop) (γ : V → List Rat → Prop)
    (request : Request) (admitted : LinearConstraint → Prop) : Prop :=
  ∀ v cs, formed v → (∀ c ∈ cs, c.form.Valid ∧ c.form.Below (D.space v).size ∧ admitted c) →
    Op.Honest request (D.meetLinear v cs) fun w =>
      D.space w = D.space v ∧ ∀ x, γ w x ↔ γ v x ∧ ∀ c ∈ cs, c.Holds x

/-- A join that is reported as exact is the union. -/
def DomainCore.JoinsHonestly (D : DomainCore V) (formed : V → Prop) (γ : V → List Rat → Prop)
    (request : Request) : Prop :=
  ∀ a b, formed a → formed b → D.space a = D.space b →
    Op.Honest request (D.join a b) fun w =>
      D.space w = D.space a ∧ ∀ x, γ w x ↔ γ a x ∨ γ b x

/-- An assignment that is reported as exact has the image as its points. -/
def Domain.AssignsHonestly (D : Domain V) (formed : V → Prop) (γ : V → List Rat → Prop)
    (request : Request) (admitted : V → List Nat → List LinearForm → Prop) : Prop :=
  ∀ v dims forms, formed v → dims.length = forms.length → dims.Nodup →
    (∀ d ∈ dims, d < (D.space v).size) → (∀ f ∈ forms, f.Valid ∧ f.Below (D.space v).size) →
    admitted v dims forms → Op.Honest request (D.assignForms v dims forms) fun w =>
      D.space w = D.space v ∧ ∀ y, γ w y ↔ ∃ x, γ v x ∧ Assigns dims forms x y

/-- A substitution that is reported as exact has the preimage as its points. -/
def Domain.SubstitutesHonestly (D : Domain V) (formed : V → Prop) (γ : V → List Rat → Prop)
    (request : Request) (admitted : V → List Nat → List LinearForm → Prop) : Prop :=
  ∀ v dims forms, formed v → dims.length = forms.length → dims.Nodup →
    (∀ d ∈ dims, d < (D.space v).size) → (∀ f ∈ forms, f.Valid ∧ f.Below (D.space v).size) →
    admitted v dims forms → Op.Honest request (D.substituteForms v dims forms) fun w =>
      D.space w = D.space v ∧ ∀ x, γ w x ↔ ∃ y, Assigns dims forms x y ∧ γ v y

end Domains

end Enclosure
