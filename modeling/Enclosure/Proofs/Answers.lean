import Enclosure.Proofs.Substitution

/-!
# Answers to queries

Queries read a value: the ranges of its dimensions, of linear forms and of terms, and whether all
its points satisfy a constraint.
-/

namespace Enclosure

open Op Interval

theorem Comparison.holdsReal_of_includes {c : Comparison} {modulus : Option Number}
    {i : Interval} {r : ℝ} (included : c.includes i = true) (encloses : i.Encloses r) :
    c.HoldsReal modulus r := by
  -- the members around the number compare as asked
  have member {q : Rat} (has : i.Has q) : c.Holds modulus q :=
    admits_of_includes included has
  cases c with
  | equal => exact encloses.eq_zero included
  | atLeast =>
    obtain ⟨⟨p, hp, below⟩, -⟩ := encloses
    exact (Rat.cast_nonneg.2 (member hp)).trans below
  | above =>
    obtain ⟨⟨p, hp, below⟩, -⟩ := encloses
    exact (Rat.cast_pos.2 (member hp)).trans_le below
  | notEqual =>
    rintro rfl
    exact member (encloses_ratCast.1 (by simpa using encloses)) rfl
  | congruent =>
    have same := encloses.eq_zero included
    refine ⟨0, by simpa using same, member (encloses_ratCast.1 ?_)⟩
    simpa [← same] using encloses

variable {V : Type} {formed : V → Prop} {γ : V → List Rat → Prop} {request : Request} {v : V}
  {d : Nat} {t : Term}

def DomainCore.BoundsDimensions (D : DomainCore V) (formed : V → Prop) (γ : V → List Rat → Prop)
    (request : Request) : Prop :=
  ∀ v d, formed v → d < (D.space v).size →
    Ensures request True (D.boundDimension v d) fun i => ∀ x, γ v x → i.Has (x.getD d 0)

/-- Ranges hold all values at all points, and a constraint that is said to be satisfied is so by all
of these values. -/
structure Domain.AnswersTruly (D : Domain V) (formed : V → Prop) (γ : V → List Rat → Prop)
    (request : Request) : Prop where
  boundDimension : D.BoundsDimensions formed γ request
  toBox : ∀ v, formed v → Ensures request True (D.toBox v) fun bounds =>
    bounds.length = (D.space v).size ∧ ∀ x, γ v x → InBox bounds x
  boundForm : D.BoundsForms formed γ request
  boundTerm : ∀ v t, formed v → t.Valid → t.support ≤ (D.space v).size →
    Ensures request True (D.boundTerm v t) fun i => ∀ x r, γ v x → t.Takes x r → i.Encloses r
  satInterval : ∀ v d i, formed v → d < (D.space v).size →
    Ensures request True (D.satInterval v d i) fun answer =>
      answer = true → ∀ x, γ v x → i.Has (x.getD d 0)
  satLinear : ∀ v c, formed v → c.form.Valid → c.form.Below (D.space v).size →
    Ensures request True (D.satLinear v c) fun answer =>
      answer = true → ∀ x r, γ v x → c.form.Reaches x r → c.comparison.Admits c.modulus r
  satTerm : ∀ v c, formed v → c.term.Valid → c.term.support ≤ (D.space v).size →
    Ensures request True (D.satTerm v c) fun answer =>
      answer = true → ∀ x r, γ v x → c.term.Takes x r → c.comparison.HoldsReal c.modulus r

namespace Domain

variable {D : Domain V}

namespace SoundOn

section

variable (sound : D.SoundOn formed γ request) (reads : D.ReadsBoxes formed γ request)
include sound reads

theorem boundTerm (wf : formed v) (valid : t.Valid) (support : t.support ≤ (D.space v).size) :
    Ensures request True (D.boundTerm v t) fun i =>
      ∀ x r, γ v x → t.Takes x r → i.Encloses r := by
  apply (sound.isBottom v wf).bind
  intro empty none
  cases empty with
  | true => exact ensures_pure fun x r inV => absurd inV (none rfl x)
  | false =>
    apply (reads.toBox v wf).bind
    rintro bounds ⟨length, ranges, inBox⟩
    have outward : D.kind.IsOutward := reads.kind ▸ Kind.isOutward_rational
    have constants : t.AllConstants (Coefficient.FitsIn D.kind) :=
      reads.kind ▸ valid.allFitIn_rational
    have inside (d : Nat) occurs : d < bounds.length :=
      length ▸ (Term.lt_support occurs).trans_le support
    have own (i : Interval) mem : i.Fits i.kind := (ranges i mem).self
    obtain ⟨i, run, -, direct⟩ := Term.eval_spec outward t constants inside own
    obtain ⟨f, run', validForm, below, -, around⟩ :=
      Term.linearize_spec outward constants inside own
    apply Ensures.ofExceptBind run
    apply Ensures.ofExceptBind run'
    apply (sound.boundForm v f wf validForm (length ▸ below)).bind
    intro j spans
    apply ensures_pure
    intro x r inV takes
    have box := inBox x inV
    have linear : j.Encloses r := (around x box x (fun d _ => box d) r takes).mono
      fun q takes => spans x (.fin q) inV takes.reaches
    have between := (direct x box r takes).between_bounds linear
    rwa [Interval.meet, Interval.canonical, between.not_isEmpty]

theorem answersTruly (dimensions : D.BoundsDimensions formed γ request) :
    D.AnswersTruly formed γ request where
  boundDimension := dimensions
  toBox v wf := (reads.toBox v wf).mono fun _ h => ⟨h.1, h.2.2⟩
  boundForm := sound.boundForm
  boundTerm _ _ wf valid support := sound.boundTerm reads wf valid support
  satInterval v d _ wf inside := by
    apply (dimensions v d wf inside).bind
    intro b has
    apply ensures_pure
    intro yes x inV
    have member := has x inV
    rw [member.not_isEmpty] at yes
    exact has_convert_rational.1 ((has_convert_rational.2 member).of_leq yes)
  satLinear _ _ wf valid below := sound.toSoundOn.satLinear sound.boundForm wf valid below
  satTerm v c wf valid support := by
    apply (sound.isBottom v wf).bind
    intro empty none
    cases empty with
    | true => exact ensures_pure fun _ x r inV => absurd inV (none rfl x)
    | false =>
      apply (sound.boundTerm reads wf valid support).bind
      intro b encloses
      apply ensures_pure
      intro yes x r inV takes
      have within := encloses x r inV takes
      rw [within.not_isEmpty] at yes
      exact Comparison.holdsReal_of_includes yes within

end

end SoundOn

end Domain

/-! ### Ranges of dimensions -/

theorem Box.boundsDimensions (k : Kind) (request : Request) :
    (core k).BoundsDimensions (Box.IsOf k) HasPoint request := by
  intro v d wf inside
  have within : d < (v.bounds k).length := by rwa [length_bounds wf.formed]
  have found := List.getElem?_eq_getElem within
  change Ensures request True (boundDimension k v d) _
  rw [boundDimension, found]
  exact ensures_pure fun x inV => inV.inBox d _ found

theorem Octagon.boundsDimensions (request : Request) :
    core.BoundsDimensions IsSquare HasPoint request := by
  intro v d square inside
  change Ensures request True (boundDimension v d) _
  unfold boundDimension
  dsimp only
  split
  · rename_i empty
    exact ensures_pure fun x inV => absurd inV (not_hasPoint_of_empty_close square empty)
  · rename_i full
    have below : d < v.close.space.size := by rwa [space_close]
    rw [if_neg (not_le.2 below)]
    apply ensures_pure
    intro x inV
    apply ((hasPoint_close square).2 inV).inBox d
    rw [bounds, if_neg full, List.getElem?_map, List.getElem?_range below]
    rfl

theorem Polyhedron.boundsDimensions (strict : Bool) (request : Request) :
    (core strict).BoundsDimensions (fun _ => True) HasPoint request := by
  intro v d _ inside
  apply ((ensures_boundDimension inside).weaken fun _ => trivial).mono
  exact fun i h x inV => h.2.1 x inV.2

/-- Queries on boxes with rational bounds, on octagons and on polyhedra with and without strict
bounds answer truly, whatever limit is set to the size of objects. -/
theorem answers_true_at_every_point (request : Request) :
    (Box.domain .rational).AnswersTruly (Box.IsOf .rational) Box.HasPoint request ∧
    Octagon.domain.AnswersTruly Octagon.IsSquare Octagon.HasPoint request ∧
    ∀ strict, (Polyhedron.domain strict).AnswersTruly (fun _ => True) Polyhedron.HasPoint
      request := by
  refine ⟨?_, ?_, fun strict => ?_⟩
  · exact (Box.soundOn request).answersTruly (Box.readsBoxes request)
      (Box.boundsDimensions .rational request)
  · exact (Octagon.soundOn request).answersTruly (Octagon.readsBoxes request)
      (Octagon.boundsDimensions request)
  · exact (Polyhedron.sound_domain strict request).soundOn.answersTruly
      (Polyhedron.readsBoxes strict request) (Polyhedron.boundsDimensions strict request)

/-- Two dimensions at least one apart are recognized as different, which their ranges alone do not
show. -/
theorem gap_recognized :
    let wedge : Octagon := ⟨⟨0, 2⟩, ⟨[[.fin 0, .posInf, .fin (-1), .posInf],
      [.fin 0, .fin 0, .posInf, .posInf], [.posInf, .posInf, .fin 0, .fin 6],
      [.posInf, .fin (-1), .posInf, .fin 0]]⟩, false, false, false⟩
    let gap : TermConstraint := ⟨.above, .binary .sub .real .nearest (.dim 1) (.dim 0), none⟩
    let request : Request := ⟨.satTerm, ⟨0, 0, 1, false, false⟩, []⟩
    wedge.HasPoint [1, 2] ∧
    (∃ after, (Octagon.domain.satTerm wedge gap).run request .start = .ok (true, after)) ∧
    ∀ x r, wedge.HasPoint x → gap.term.Takes x r → 0 < r := by
  intro wedge gap request
  have square : wedge.IsSquare := ⟨rfl, by decide⟩
  obtain ⟨answer, after, run, yes⟩ := Op.exists_run_of_any (p := id)
    (show ((Octagon.domain.satTerm wedge gap).run request .start).toOption.any (fun r => id r.1) =
      true by decide +kernel)
  obtain rfl : answer = true := yes
  refine ⟨?_, ⟨after, run⟩, ?_⟩
  · refine Octagon.hasPoint_iff.2 ⟨rfl, Space.isPoint_of_real rfl rfl, ?_⟩
    exact BoundMatrix.holds_of_square square (by decide +kernel)
  · -- the run is the one that the general statement is about
    have truly := (answers_true_at_every_point request).2.1.satTerm wedge gap square
      ⟨trivial, trivial⟩ (by decide)
    obtain ⟨answer', after', run', holds⟩ := (truly.returns_of_noAborts rfl) .start
    rw [run] at run'
    cases run'
    exact holds rfl

end Enclosure
