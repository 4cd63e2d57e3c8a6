import Enclosure.Proofs.Soundness
import Enclosure.Proofs.Terms

/-!
# Operations on terms

A domain handles terms through linear forms.
-/

namespace Enclosure

open Op

/-- The second vector is the first one after rational values of the terms there were assigned to
the dimensions. -/
def AssignsTerms (dims : List Nat) (ts : List Term) (x y : List Rat) : Prop :=
  ∃ vs : List Rat, List.Forall₂ (fun t v => t.Takes x (v : ℝ)) ts vs ∧ y = assignAll dims vs x

theorem AssignsTerms.single {t : Term} {x : List Rat} {v : Rat} (takes : t.Takes x (v : ℝ))
    (d : Nat) : AssignsTerms [d] [t] x (x.set d v) :=
  ⟨[v], .cons takes .nil, rfl⟩

def Comparison.HoldsReal (c : Comparison) (modulus : Option Number) (r : ℝ) : Prop :=
  match c with
  | .equal => r = 0
  | .atLeast => 0 ≤ r
  | .above => 0 < r
  | .notEqual => r ≠ 0
  | .congruent => ∃ v : Rat, r = v ∧ Comparison.congruent.Holds modulus v

def TermConstraint.Holds (c : TermConstraint) (x : List Rat) : Prop :=
  ∃ r, c.term.Takes x r ∧ c.comparison.HoldsReal c.modulus r

theorem Comparison.HoldsReal.exists_holds {c : Comparison} {modulus : Option Number} {r : ℝ}
    {A : Set Rat} (h : c.HoldsReal modulus r) (around : Brackets A r) (connected : A.OrdConnected) :
    ∃ v ∈ A, c.Holds modulus v := by
  obtain ⟨⟨p, hp, below⟩, q, hq, above⟩ := id around
  cases c with
  | equal =>
    obtain rfl : r = 0 := h
    exact ⟨0, Brackets.mem (by simpa using around) connected, rfl⟩
  | atLeast => exact ⟨q, hq, Rat.cast_nonneg.1 (h.trans above)⟩
  | above => exact ⟨q, hq, Rat.cast_pos.1 (h.trans_le above)⟩
  | notEqual =>
    rcases lt_or_gt_of_ne h with negative | positive
    · exact ⟨p, hp, (Rat.cast_lt_zero.1 (below.trans_lt negative)).ne⟩
    · exact ⟨q, hq, (Rat.cast_pos.1 (positive.trans_le above)).ne'⟩
  | congruent =>
    obtain ⟨v, rfl, holds⟩ := h
    exact ⟨v, around.mem connected, holds⟩

variable {V : Type} {formed : V → Prop} {γ : V → List Rat → Prop} {request : Request}

def DomainCore.ReadsRanges (D : DomainCore V) (formed : V → Prop) (γ : V → List Rat → Prop)
    (request : Request) : Prop :=
  ∀ v, formed v → Ensures request True (D.toBox v) fun bounds =>
    bounds.length = (D.space v).size ∧ (∀ i ∈ bounds, i.Fits D.kind) ∧ ∀ x, γ v x → InBox bounds x

structure DomainCore.ReadsBoxes (D : DomainCore V) (formed : V → Prop) (γ : V → List Rat → Prop)
    (request : Request) : Prop where
  kind : D.kind = .rational
  toBox : D.ReadsRanges formed γ request

/-- The entry of a vector at a dimension is in every interval that has all values of the
dimension. -/
def WithinValues (γ : V → List Rat → Prop) (v : V) (x : List Rat) (d : Nat) : Prop :=
  ∀ i : Interval, (∀ z, γ v z → i.Has (z.getD d 0)) → i.Has (x.getD d 0)

theorem WithinValues.of_mem {v : V} {x : List Rat} (inside : γ v x) (d : Nat) :
    WithinValues γ v x d := fun _ all => all x inside

def LinearForm.StandsFor (f : LinearForm) (t : Term) (x : List Rat) : Prop :=
  ∀ r, t.Takes x r → Brackets {v | f.Takes x v} r

theorem forall_of_forall₂ {α β : Type} {R : α → β → Prop} {p : β → Prop} {xs : List α}
    {ys : List β} (h : List.Forall₂ R xs ys) (imp : ∀ x ∈ xs, ∀ y, R x y → p y) :
    ∀ y ∈ ys, p y := by
  induction h with
  | nil => simp
  | cons first _ ih =>
    rw [List.forall_mem_cons]
    exact ⟨imp _ (by simp) _ first, ih fun x mem => imp x (by simp [mem])⟩

theorem AssignsTerms.assigns {dims : List Nat} {ts : List Term} {forms : List LinearForm}
    {x y : List Rat} (h : AssignsTerms dims ts x y)
    (stands : List.Forall₂ (fun t f => f.StandsFor t x) ts forms) : Assigns dims forms x y := by
  obtain ⟨vs, values, rfl⟩ := h
  refine ⟨vs, ?_, rfl⟩
  induction stands generalizing vs with
  | nil =>
    cases values
    exact .nil
  | cons first _ ih =>
    cases values with
    | cons value values =>
      exact .cons ((first _ value).mem (LinearForm.ordConnected _ _)) (ih _ values)

/-- The term is about the dimensions of a space, and if it is affine, its doubles are rounded
outward. -/
structure Term.IsReadable (t : Term) (n : Nat) : Prop where
  valid : t.Valid
  inside : t.support ≤ n
  outward : t.toLinear? = none ∨ t.roundsOutward = true

namespace DomainCore

variable {D : DomainCore V} {v : V} {ts : List Term} {dims : List Nat}

theorem ReadsBoxes.linearizeAll (reads : D.ReadsBoxes formed γ request) (wf : formed v)
    (readable : ∀ t ∈ ts, t.IsReadable (D.space v).size) :
    Ensures request True (D.linearizeAll v ts) fun forms =>
      (∀ f ∈ forms, f.Valid ∧ f.Below (D.space v).size) ∧
        List.Forall₂ (fun t f => ∀ z x, γ v z →
          (t.toLinear? = none → ∀ d, t.hasDim d = true → WithinValues γ v x d) →
          f.StandsFor t x) ts forms := by
  refine (reads.toBox v wf).bind ?_
  rintro _ ⟨length, ranges, inBox⟩
  refine .mono (ensures_mapM ts fun t mem => ?_ :
    Ensures request True _ (List.Forall₂ (fun t f =>
      (f.Valid ∧ f.Below (D.space v).size) ∧ ∀ z x, γ v z →
        (t.toLinear? = none → ∀ d, t.hasDim d = true → WithinValues γ v x d) →
        f.StandsFor t x) ts)) fun forms h =>
    ⟨forall_of_forall₂ h fun t _ f h => h.1, h.imp fun _ _ h => h.2⟩
  -- each form is good by itself
  have inside (d : Nat) occurs : d < (D.space v).size :=
    (Term.lt_support occurs).trans_le (readable t mem).inside
  cases affine : t.toLinear? with
  | some f =>
    have outward := (readable t mem).outward.resolve_left (by simp [affine])
    obtain ⟨validForm, below, values⟩ :=
      Term.toLinear?_spec (readable t mem).valid inside outward affine
    exact ensures_pure ⟨⟨validForm, below⟩, fun _ x _ _ => values x⟩
  | none =>
    obtain ⟨f, run, validForm, below, -, values⟩ :=
      Term.linearize_spec Kind.isOutward_rational (readable t mem).valid.allFitIn_rational
        (length.symm ▸ inside) fun i mem => (ranges i mem).self
    rw [← reads.kind] at run
    refine .markInexactBind (ensures_ofExcept run ⟨⟨validForm, length ▸ below⟩, ?_⟩)
    intro z x inV near
    apply values z (inBox z inV) x
    intro d occurs i found
    exact near rfl d occurs i fun z inV => inBox z inV d i found

theorem SoundOn.boundByBox (sound : D.SoundOn formed γ request) (outward : D.kind.IsOutward)
    (reads : D.ReadsRanges formed γ request) (wf : formed v) {f : LinearForm} (valid : f.Valid)
    (below : f.Below (D.space v).size) :
    Ensures request True (D.boundByBox v f) fun i =>
      ∀ x r, γ v x → f.Reaches x r → i.Spans r := by
  apply (sound.isBottom v wf).bind
  intro empty none
  cases empty with
  | true => exact ensures_pure fun x r inV => absurd inV (none rfl x)
  | false =>
    apply (reads v wf).bind
    intro bounds ⟨length, ranges, inBox⟩
    obtain ⟨i, run, -, -, spans⟩ := LinearForm.eval_spec outward valid (length.symm ▸ below)
      fun i mem => (ranges i mem).isOf.toValid
    exact ensures_ofExcept run fun x r inV reaches => spans x (inBox x inV) r reaches

theorem SoundOn.assignLinearized (sound : D.SoundOn formed γ request)
    (reads : D.ReadsBoxes formed γ request) (wf : formed v) (same : dims.length = ts.length)
    (nodup : dims.Nodup) (inside : ∀ d ∈ dims, d < (D.space v).size)
    (readable : ∀ t ∈ ts, t.IsReadable (D.space v).size) :
    Ensures request True (D.assignLinearized v dims ts) fun w =>
      formed w ∧ D.space w = D.space v ∧ ∀ x y, γ v x → AssignsTerms dims ts x y →
        (D.space v).IsPoint y → γ w y := by
  refine (reads.linearizeAll wf readable).bind ?_
  rintro _ ⟨valid, stands⟩
  refine (sound.assignByFresh wf (same.trans stands.length_eq) nodup inside valid).mono ?_
  rintro w ⟨wfW, space, keeps⟩
  refine ⟨wfW, space, fun x y inV assigns point => keeps x y inV (assigns.assigns ?_) point⟩
  exact stands.imp fun _ _ h => h x x inV fun _ d _ => .of_mem inV d

theorem SoundOn.meetTerms {D : Domain V} (sound : D.toDomainCore.SoundOn formed γ request)
    (outward : D.kind.IsOutward) (reads : D.ReadsRanges formed γ request) (wf : formed v)
    {cs : List TermConstraint} (valid : ∀ c ∈ cs,
      c.term.AllConstants (Coefficient.FitsIn D.kind) ∧ c.term.support ≤ (D.space v).size) :
    Ensures request True (D.meetTerms v cs) fun w =>
      formed w ∧ D.space w = D.space v ∧ (∀ x, γ v x → (∀ c ∈ cs, c.Holds x) → γ w x) ∧
        ∀ x, γ w x → γ v x := by
  refine (reads v wf).bind ?_
  rintro bounds ⟨length, ranges, inBox⟩
  have each (c : TermConstraint) (mem : c ∈ cs) : Ensures request True
      (do
        let form ← .ofExcept (c.term.linearize bounds D.kind)
        return LinearConstraint.mk c.comparison form c.modulus) fun l =>
        (l.form.Valid ∧ l.form.Below (D.space v).size) ∧ ∀ x, γ v x → c.Holds x → l.Admits x := by
    obtain ⟨f, run, validForm, below, -, values⟩ := Term.linearize_spec outward (valid c mem).1
      (fun d occurs => length ▸ (Term.lt_support occurs).trans_le (valid c mem).2)
      fun i mem => (ranges i mem).self
    refine .ofExceptBind run (ensures_pure ⟨⟨validForm, length ▸ below⟩, ?_⟩)
    rintro x inV ⟨r, takes, holds⟩
    obtain ⟨u, hu, compares⟩ := holds.exists_holds
      (values x (inBox x inV) x (fun d _ => inBox x inV d) r takes) (f.ordConnected x)
    exact LinearConstraint.Holds.admits ⟨u, hu, compares⟩
  refine (ensures_mapM cs each).bind fun linear h => ?_
  refine .markInexactIf ?_
  refine (sound.meetLinear v linear wf (forall_of_forall₂ h fun c _ l h => h.1)).mono ?_
  rintro w ⟨wfW, space, keeps, within⟩
  refine ⟨wfW, space, fun x inV holds => keeps x inV ?_, within⟩
  exact forall_of_forall₂ h fun c mem l h => h.2 x inV (holds c mem)

end DomainCore

namespace Domain.SoundOn

variable {D : Domain V} {v : V} {ts : List Term} {dims : List Nat}

theorem substituteTerms (sound : D.SoundOn formed γ request)
    (reads : D.ReadsBoxes formed γ request) (wf : formed v) (same : dims.length = ts.length)
    (inside : ∀ d ∈ dims, d < (D.space v).size)
    (readable : ∀ t ∈ ts, t.IsReadable (D.space v).size) :
    Ensures request True (D.substituteTerms v dims ts) fun w =>
      formed w ∧ D.space w = D.space v ∧ ∀ x y, (D.space v).IsPoint x →
        (∀ t ∈ ts, t.toLinear? = none → ∀ d ∈ dims, t.hasDim d = true → WithinValues γ v x d) →
        AssignsTerms dims ts x y → γ v y → γ w x := by
  apply (reads.linearizeAll wf readable).bind
  intro forms ⟨valid, stands⟩
  apply (sound.substituteForms wf (same.trans stands.length_eq) inside valid).mono
  intro w ⟨wfW, space, keeps⟩
  refine ⟨wfW, space, fun x y point near assigns inV => keeps x y point (assigns.assigns ?_) inV⟩
  -- the other dimensions have the values of the image
  have kept (d : Nat) (other : d ∉ dims) : WithinValues γ v x d := by
    obtain ⟨vs, -, rfl⟩ := assigns
    intro i all
    rw [← getD_assignAll_of_not_mem other vs x]
    exact all _ inV
  refine ((List.forall₂_and_left _ _).2 ⟨near, stands⟩).imp fun t f h => ?_
  apply h.2 y x inV
  intro general d occurs
  by_cases assigned : d ∈ dims
  · exact h.1 general d assigned occurs
  · exact kept d assigned

theorem meetTerms (sound : D.SoundOn formed γ request) (reads : D.ReadsBoxes formed γ request)
    (wf : formed v) {cs : List TermConstraint}
    (valid : ∀ c ∈ cs, c.term.Valid ∧ c.term.support ≤ (D.space v).size) :
    Ensures request True (D.meetTerms v cs) fun w =>
      formed w ∧ D.space w = D.space v ∧ (∀ x, γ v x → (∀ c ∈ cs, c.Holds x) → γ w x) ∧
        ∀ x, γ w x → γ v x := by
  apply sound.toSoundOn.meetTerms (reads.kind ▸ Kind.isOutward_rational) reads.toBox wf
  intro c mem
  exact ⟨reads.kind ▸ (valid c mem).1.allFitIn_rational, (valid c mem).2⟩

end Domain.SoundOn

end Enclosure
