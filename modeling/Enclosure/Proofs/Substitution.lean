import Enclosure.Proofs.Box.Soundness
import Enclosure.Proofs.Octagon.Soundness
import Enclosure.Proofs.Polyhedron.Soundness

/-!
# Substitution of terms

Substitution goes backward: its result has the points whose image under a simultaneous assignment is
in a value.
-/

namespace Enclosure

/-- Substitution of terms has every point whose image under the assignment of some of their values
is in the value, if it is within the ranges over which terms are linearized. -/
def Domain.SubstitutesTerms {V : Type} (D : Domain V) (formed : V → Prop)
    (γ : V → List Rat → Prop) (request : Request) : Prop :=
  ∀ v dims ts, formed v → dims.length = ts.length → (∀ d ∈ dims, d < (D.space v).size) →
    (∀ t ∈ ts, t.IsReadable (D.space v).size) →
    Op.Ensures request True (D.substituteTerms v dims ts) fun w =>
      formed w ∧ D.space w = D.space v ∧ ∀ x y, (D.space v).IsPoint x →
        (∀ t ∈ ts, t.toLinear? = none → ∀ d ∈ dims, t.hasDim d = true → WithinValues γ v x d) →
        AssignsTerms dims ts x y → γ v y → γ w x

theorem Polyhedron.readsBoxes (strict : Bool) (request : Request) :
    (core strict).ReadsBoxes (fun _ => True) HasPoint request where
  kind := rfl
  toBox v _ := by
    apply ((ensures_toBox v).weaken fun _ => trivial).mono
    intro bounds ⟨length, rational, inBox⟩
    exact ⟨length, fun i mem => (rational i mem).fits, fun x inside => inBox x inside.2⟩

/-- Substitution of terms loses no point within the ranges of the value, in boxes with rational
bounds, in octagons and in polyhedra with and without strict bounds. -/
theorem substitution_keeps_preimages (request : Request) :
    (Box.domain .rational).SubstitutesTerms (Box.IsOf .rational) Box.HasPoint request ∧
    Octagon.domain.SubstitutesTerms Octagon.IsSquare Octagon.HasPoint request ∧
    ∀ strict, (Polyhedron.domain strict).SubstitutesTerms (fun _ => True) Polyhedron.HasPoint
      request := by
  refine ⟨?_, ?_, ?_⟩
  · intro v dims ts formed same inside readable
    exact (Box.soundOn request).substituteTerms (Box.readsBoxes request) formed same inside
      readable
  · intro v dims ts formed same inside readable
    exact (Octagon.soundOn request).substituteTerms (Octagon.readsBoxes request) formed same
      inside readable
  · intro strict v dims ts formed same inside readable
    exact (Polyhedron.sound_domain strict request).soundOn.substituteTerms
      (Polyhedron.readsBoxes strict request) formed same inside readable

private theorem hasPoint_line {lo hi : ExtRat} {q : Rat} :
    Box.HasPoint (.ranges ⟨0, 1⟩ [.ofExt lo hi]) [q] ↔ lo ≤ .fin q ∧ .fin q ≤ hi := by
  constructor
  · intro inside
    exact inside.2 0 _ rfl
  · intro within
    refine ⟨⟨rfl, by simp [Space.isInt]⟩, fun d i found => ?_⟩
    obtain ⟨rfl, rfl⟩ : d = 0 ∧ i = .ofExt lo hi := by
      obtain ⟨first, rfl⟩ := List.getElem?_eq_some_iff.1 found
      obtain rfl : d = 0 := by simpa using first
      exact ⟨rfl, rfl⟩
    exact within

private theorem assignsTerms_square : AssignsTerms [0] [.mul (.dim 0) (.dim 0)] [2] [4] := by
  have two : (Term.dim 0).Takes [2] 2 := rfl
  have square := two.mul two
  exact .single (by exact_mod_cast square) 0

/-- The square root of four is kept where the range reaches from zero to four. -/
theorem root_within_range_kept :
    let range : Box := .ranges ⟨0, 1⟩ [.ofExt (.fin 0) (.fin 4)]
    Op.Returns ⟨.substituteTerms, .standard, []⟩
      ((Box.domain .rational).substituteTerms range [0] [.mul (.dim 0) (.dim 0)])
      fun w => w.HasPoint [2] := by
  intro range
  have formed : range.IsOf .rational := by
    refine ⟨⟨rfl, by decide⟩, ?_⟩
    intro i mem
    rw [List.mem_singleton.1 mem]
    exact Interval.isOf_rational_iff.2 (Interval.isRational_ofExt _ _)
  have two : range.HasPoint [2] := hasPoint_line.2 (by decide)
  have four : range.HasPoint [4] := hasPoint_line.2 (by decide)
  have result := (substitution_keeps_preimages ⟨.substituteTerms, .standard, []⟩).1 range [0]
    [.mul (.dim 0) (.dim 0)] formed rfl (by decide)
    (by simpa using ⟨⟨trivial, trivial⟩, by decide, by decide⟩)
  apply (result.returns_of_noAborts rfl).mono
  intro w ⟨_, _, keeps⟩
  exact keeps [2] [4] two.1 (fun _ _ _ d _ _ => .of_mem two d) assignsTerms_square four

/-- The square root of four is lost where the range is four alone: the square was linearized as four
times the dimension. -/
theorem substitution_outside_ranges_loses_points :
    let four : Box := .ranges ⟨0, 1⟩ [.ofExt (.fin 4) (.fin 4)]
    let sum : Term := .add (.const (.exact ⟨.double, .fin (-3 * 2 ^ 970)⟩))
      (.const (.exact ⟨.double, .fin Double.maxFinite⟩))
    let value : Rat := -3 * 2 ^ 970 + Double.maxFinite
    let huge : Box := .ranges ⟨0, 1⟩ [.ofExt (.fin value) (.fin value)]
    four.HasPoint [4] ∧ AssignsTerms [0] [.mul (.dim 0) (.dim 0)] [2] [4] ∧
    huge.HasPoint [value] ∧ AssignsTerms [0] [sum] [0] [value] ∧
    (∃ w after, ((Box.domain .rational).substituteTerms four [0] [.mul (.dim 0) (.dim 0)]).run
      ⟨.substituteTerms, .standard, []⟩ .start = .ok (w, after) ∧ ¬ w.HasPoint [2]) ∧
    ∃ w after, ((Box.domain .rational).substituteTerms huge [0] [sum]).run
      ⟨.substituteTerms, .standard, []⟩ .start = .ok (w, after) ∧ ¬ w.HasPoint [0] := by
  intro four sum value huge
  refine ⟨?_, assignsTerms_square, ?_, ?_, ?_, ?_⟩
  · exact hasPoint_line.2 (by decide)
  · exact hasPoint_line.2 ⟨le_refl _, le_refl _⟩
  · have total := (Term.takes_exact .double (-3 * 2 ^ 970)).add
      (Term.takes_exact (x := [0]) .double Double.maxFinite)
    rw [← Rat.cast_add] at total
    exact .single total 0
  · let unit : Box := .ranges ⟨0, 1⟩ [.ofExt (.fin 1) (.fin 1)]
    obtain ⟨w, after, run, found⟩ := Op.exists_run_of_any (p := fun w => decide (w = unit))
      (show (((Box.domain .rational).substituteTerms four [0] [.mul (.dim 0) (.dim 0)]).run
        ⟨.substituteTerms, .standard, []⟩ .start).toOption.any (fun r => decide (r.1 = unit)) = true
        by decide +kernel)
    obtain rfl : w = unit := of_decide_eq_true found
    refine ⟨unit, after, run, fun inside => ?_⟩
    exact absurd (hasPoint_line.1 inside).2 (by decide)
  · let nothing : Box := .empty ⟨0, 1⟩
    obtain ⟨w, after, run, found⟩ := Op.exists_run_of_any (p := fun w => decide (w = nothing))
      (show (((Box.domain .rational).substituteTerms huge [0] [sum]).run
        ⟨.substituteTerms, .standard, []⟩ .start).toOption.any (fun r => decide (r.1 = nothing)) =
        true by decide +kernel)
    obtain rfl : w = nothing := of_decide_eq_true found
    exact ⟨nothing, after, run, id⟩

end Enclosure
