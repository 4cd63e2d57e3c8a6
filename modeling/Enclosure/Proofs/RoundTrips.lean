import Enclosure.Proofs.Box.Exports
import Enclosure.Proofs.Octagon.Exports
import Enclosure.Proofs.Polyhedron.Exports

/-!
# Round trips through constraints

A value is exported as constraints, and all points are met with them.
-/

namespace Enclosure

/-- A value that is exported comes back with the same points, over every space. -/
theorem constraints_round_trip (request request' query : Request)
    (unlimited : request.options.maxObjectSize = 0) (unlimited' : query.options.maxObjectSize = 0) :
    (∀ k : Kind, k ≠ .double → k ≠ .binary 0 → ∀ v : Box, v.Fits k → v.IsProper →
      (Box.domain k).RoundTrip request request' v fun w =>
        w.space = v.space ∧ (∀ x, w.HasPoint x ↔ v.HasPoint x) ∧
          ((Box.domain k).Equates query w v ↔ v.IsIntegral)) ∧
    (∀ v : Octagon, Octagon.domain.Built (fun c => c.IsValid ∧ c.HasProperRanges) v →
      Octagon.domain.RoundTrip request request' v fun w =>
        w.space = v.space ∧ (∀ x, w.HasPoint x ↔ v.HasPoint x) ∧
          (v.space.ints = 0 → Octagon.domain.Built
            (fun c => c.IsValid ∧ c.HasProperRanges ∧ Octagon.KeepsReals c) v →
            Octagon.domain.Equates query w v)) ∧
    ∀ (strict : Bool) (v : Polyhedron),
      (strict = true ∨ (Polyhedron.domain false).Built (fun _ => True) v) →
      (Polyhedron.domain strict).RoundTrip request request' v fun w =>
        w.space = v.space ∧ (∀ x, w.HasPoint x ↔ v.HasPoint x) ∧
          (v.space.ints = 0 → (Polyhedron.domain strict).Equates query w v) := by
  have free : ¬ request.Limited := by simp [Request.Limited, unlimited]
  have free' : ¬ query.Limited := by simp [Request.Limited, unlimited']
  refine ⟨fun k directed bits v fits proper => ?_, fun v built => ?_, fun strict v kept => ?_⟩
  · exact Box.roundTrip (Kind.isOutward_of_ne directed bits) fits proper
  · have regular : v.IsRegular := Octagon.keeps_isRegular.of_built built
    refine (regular.roundTrip query).mono fun w h => ?_
    exact ⟨h.1, h.2.1, fun real kept => h.2.2 ⟨real, Octagon.keeps_markedOn.of_built kept⟩⟩
  · have loose := kept.imp_right fun built =>
      (Polyhedron.keeps_isLoose fun _ => True).of_built built
    exact Polyhedron.roundTrip free free' loose

/-- A box with bounds of few bits, an octagon with a bound on a sum, and the open half-line come
back. -/
theorem box_octagon_and_open_ray_got_back :
    let request : Request := ⟨.meet, .standard, []⟩
    let few : Kind := .binary 8
    let box : Box := .ranges ⟨1, 1⟩ [⟨.ofExt few .down (.fin 0), .ofExt few .up (.fin 301)⟩,
      ⟨.ofExt few .down (.fin (1 / 3)), .ofExt few .up .posInf⟩]
    let sum : Octagon := ⟨⟨0, 2⟩, ⟨[[.fin 0, .posInf, .posInf, .fin (1 / 3)],
      [.posInf, .fin 0, .posInf, .posInf], [.posInf, .fin (1 / 3), .fin 0, .posInf],
      [.posInf, .posInf, .posInf, .fin 0]]⟩, true, false, false⟩
    let ray : Polyhedron := ⟨⟨0, 1⟩, [⟨[-1], 0, true⟩], by decide⟩
    (Box.domain few).RoundTrip request request box ((Box.domain few).Equates request · box) ∧
    Octagon.domain.RoundTrip request request sum (Octagon.domain.Equates request · sum) ∧
    (Polyhedron.domain true).RoundTrip request request ray fun w =>
      (Polyhedron.domain true).Equates request w ray ∧ ¬ w.HasPoint [0] := by
  intro request few box sum ray
  obtain ⟨boxes, octagons, polyhedra⟩ := constraints_round_trip request request request rfl rfl
  refine ⟨?_, ?_, ?_⟩
  · have fits : box.Fits few := by
      refine ⟨⟨rfl, by decide +kernel⟩, fun i mem => ?_⟩
      rcases List.mem_pair.1 mem with rfl | rfl
      · exact ⟨Number.fits_ofExt _ _ _, Number.fits_ofExt _ _ _⟩
      · exact ⟨Number.fits_ofExt _ _ _, Number.fits_ofExt _ _ _⟩
    have proper : box.IsProper := by
      intro i mem
      rcases List.mem_pair.1 mem with rfl | rfl
      · exact ⟨by decide +kernel, by decide +kernel⟩
      · exact ⟨by decide +kernel, by decide +kernel⟩
    have integral : box.IsIntegral := by
      intro d i found int
      obtain rfl : d = 0 := by simpa [Space.isInt] using int
      obtain rfl := Option.some.inj found
      have lower : (Number.ofExt few .down (.fin 0)).value = .fin 0 := by decide +kernel
      have upper : (Number.ofExt few .up (.fin 301)).value = .fin 302 := by decide +kernel
      exact ⟨fun q value => ExtRat.fin.inj (lower.symm.trans value) ▸ rfl,
        fun q value => ExtRat.fin.inj (upper.symm.trans value) ▸ rfl⟩
    exact (boxes few (by decide) (by decide) box fits proper).mono fun w h => h.2.2.2 integral
  · have start : Octagon.domain.Built
        (fun c => c.IsValid ∧ c.HasProperRanges ∧ Octagon.KeepsReals c) (.top ⟨0, 2⟩) :=
      Domain.built_of_any (c := .top ⟨0, 2⟩) ⟨trivial, trivial, trivial⟩
        (by simp [Construction.operands]) request (by decide +kernel)
    have built : Octagon.domain.Built
        (fun c => c.IsValid ∧ c.HasProperRanges ∧ Octagon.KeepsReals c) sum :=
      Domain.built_of_any (c := .meetLinear (.top ⟨0, 2⟩) [⟨.atLeast,
          ⟨.rational (1 / 3), .sparse [(0, .rational (-1)), (1, .rational (-1))]⟩, none⟩])
        ⟨trivial, trivial, trivial⟩ (by simpa [Construction.operands] using start) request
        (by decide +kernel)
    exact (octagons sum (built.mono fun c h => ⟨h.1, h.2.1⟩)).mono fun w h => h.2.2 rfl built
  · refine (polyhedra true ray (.inl rfl)).mono fun w h => ⟨h.2.2 rfl, fun zero => ?_⟩
    exact absurd ((h.2.1 [0]).1 zero).2 (by decide +kernel)

/-- An integer dimension with a bound between integers comes back rounded. -/
theorem unrounded_improper_or_retyped_changed :
    let request : Request := ⟨.meet, .standard, []⟩
    (∃ v : Box, (Box.domain .rational).Built Construction.IsValid v ∧ v.Fits .rational ∧
      v.IsProper ∧ ¬ (Box.domain .rational).RoundTrip request request v
        ((Box.domain .rational).Equates request · v)) ∧
    (∃ v : Octagon, Octagon.domain.Built (fun c => c.IsValid ∧ Octagon.KeepsReals c) v ∧
      v.space = ⟨0, 1⟩ ∧ ¬ Octagon.domain.RoundTrip request request v fun w =>
        ∀ x, w.HasPoint x ↔ v.HasPoint x) ∧
    ∃ v : Octagon, Octagon.domain.Built (fun c => c.IsValid ∧ c.HasProperRanges) v ∧
      v.space = ⟨0, 2⟩ ∧ ¬ Octagon.domain.RoundTrip request request v
        (Octagon.domain.Equates request · v) := by
  intro request
  refine ⟨⟨.ranges ⟨1, 1⟩ [.ofExt (.fin (1 / 2)) (.fin (3 / 2)), .ofExt (.fin 0) (.fin 0)], ?_, ?_,
    ?_, fun trip => ?_⟩, ⟨Octagon.beyond, ?_, rfl, fun trip => ?_⟩,
    ⟨Octagon.retyped, Octagon.built_retyped, rfl, fun trip => ?_⟩⟩
  · have start : (Box.domain .rational).Built Construction.IsValid
        (.ranges ⟨1, 1⟩ [.ofExt (.fin 0) (.fin 0), .ofExt (.fin (1 / 2)) (.fin (3 / 2))]) :=
      Domain.built_of_any (c := .ofBox ⟨1, 1⟩ [.ofExt (.fin 0) (.fin 0),
        .ofExt (.fin (1 / 2)) (.fin (3 / 2))]) trivial (by simp [Construction.operands]) request
        (by decide +kernel)
    have valid : (⟨[1, 0]⟩ : Permutation).Valid 2 := ⟨rfl, by decide, by decide⟩
    exact Domain.built_of_any (c := .permuteDimensions (.ranges ⟨1, 1⟩ [.ofExt (.fin 0) (.fin 0),
      .ofExt (.fin (1 / 2)) (.fin (3 / 2))]) ⟨[1, 0]⟩) valid
      (by simpa [Construction.operands] using start) request (by decide +kernel)
  · refine ⟨⟨rfl, by decide +kernel⟩, fun i mem => ?_⟩
    rcases List.mem_pair.1 mem with rfl | rfl
    · exact ⟨⟨rfl, trivial⟩, rfl, trivial⟩
    · exact ⟨⟨rfl, trivial⟩, rfl, trivial⟩
  · intro i mem
    rcases List.mem_pair.1 mem with rfl | rfl
    · exact ⟨by decide +kernel, by decide +kernel⟩
    · exact ⟨by decide +kernel, by decide +kernel⟩
  · have equal := ((Op.gives_pure _).returns_iff.1 trip).of_any
      (a := .ranges ⟨1, 1⟩ [.ofExt (.fin 1) (.fin 1), .ofExt (.fin 0) (.fin 0)]) (by decide +kernel)
    exact Bool.false_ne_true (equal.of_any (a := false) (by decide +kernel))
  · exact Domain.built_of_any (c := .ofBox ⟨0, 1⟩ [.ofExt .posInf .posInf]) ⟨trivial, trivial⟩
      (by simp [Construction.operands]) request (by decide +kernel)
  · have points := ((Op.gives_pure _).returns_iff.1 trip).of_any (a := .top ⟨0, 1⟩)
      (by decide +kernel)
    have inside := (points [0]).1 (Octagon.hasPoint_top.2 (Space.isPoint_of_real rfl rfl))
    have never : ExtRat.fin _ ≤ .negInf := inside.holds 1 0
    exact ExtRat.not_fin_le_negInf never
  · have equal := ((Op.gives_pure _).returns_iff.1 trip).of_any
      (a := ⟨⟨0, 2⟩, ⟨[[.fin 0, .fin 0, .posInf, .fin 0], [.posInf, .fin 0, .posInf, .fin 0],
        [.fin 0, .fin 0, .fin 0, .fin 0], [.posInf, .posInf, .posInf, .fin 0]]⟩, true, false,
        false⟩) (by decide +kernel)
    exact Bool.false_ne_true (equal.of_any (a := false) (by decide +kernel))

end Enclosure
