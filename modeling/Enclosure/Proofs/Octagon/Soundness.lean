import Enclosure.Proofs.Octagon.Constraints
import Enclosure.Proofs.TermOperations
import Enclosure.Proofs.Widening

/-!
# No operation on octagons loses a point

The points of an octagon are the points of its space that satisfy its matrix: vectors that are
integers on the integer dimensions.
-/

namespace Enclosure.Octagon

open Op BoundMatrix

variable {request : Request} {risk : Prop}

theorem ensures_isLeq_includes {a b : Octagon} (square : a.IsSquare) (square' : b.IsSquare)
    (same : a.space = b.space) :
    Ensures request risk (a.isLeq b) fun answer =>
      answer = true → ∀ x, a.HasPoint x → b.HasPoint x := by
  apply (ensures_requireSame _ same).bind
  intro _ _
  exact ensures_pure fun within x inside => .of_within square square' same within inside

theorem soundOn_core (request : Request) : core.SoundOn IsSquare HasPoint request where
  isPoint h := h.isPoint
  isBottom _ square :=
    ensures_pure fun empty _ => not_hasPoint_of_empty_close square empty
  isLeq _ _ square square' same := ensures_isLeq_includes square square' same
  meet _ _ square square' same := (ensures_meet square square' same).mono fun _ h =>
    ⟨h.1, h.2.1, fun x inA inB => (h.2.2 x).2 ⟨inA, inB⟩⟩
  meetLinear _ _ square valid :=
    (ensures_meetLinear square valid).mono fun _ h => ⟨h.square, h.space, h.keeps, h.within⟩
  join _ _ square square' same := ensures_join square square' same
  widening _ _ square square' same :=
    (wideningStops request).ensures_widening (fun _ _ => ensures_isLeq_includes) square square' same
  addDimensions o c project _ fits representable := by
    refine ((ensures_exceedsSize _).weaken fun _ => trivial).bind fun tooLarge _ => ?_
    cases tooLarge with
    | true =>
      refine ensures_pure ⟨isSquare_top _, rfl, fun y point _ _ => hasPoint_top.2 point⟩
    | false =>
      rw [if_neg Bool.false_ne_true]
      split
      · rename_i empty
        refine ensures_pure ⟨isSquare_bottom _, rfl, fun y _ inside _ => ?_⟩
        simp [inside.not_empty] at empty
      · have squareMoved : (insertedMatrix o.matrix (c.shifts o.space.size)
            (2 * (o.space.grow c).size)).IsSquare (2 * (o.space.grow c).size) :=
          isSquare_ofFn _ _
        cases project with
        | false =>
          refine ensures_pure ⟨squareMoved, rfl, fun y point inside _ => ?_⟩
          exact hasPoint_iff.2 ⟨rfl, point, holds_insertedMatrix inside.holds⟩
        | true =>
          have checked : c.checkedAdded = .ok c.added := by
            rw [SpaceChange.checkedAdded, if_pos (by simpa using representable rfl)]
          have below : ∀ d ∈ c.added, d < (o.space.grow c).size := fun d new => fits.added_lt new
          refine .ofExceptBind checked ?_
          rw [if_neg (by simpa using below)]
          refine ensures_pure ⟨squareMoved.mapEntries _, rfl, fun y point inside zeros => ?_⟩
          refine hasPoint_iff.2 ⟨rfl, point, holds_mapEntries squareMoved ?_⟩
          intro i _ j _
          split
          · rename_i new
            obtain ⟨rfl, mem⟩ := new
            have zero : nodeValue y i = 0 := by
              rw [nodeValue, zeros rfl _ mem, neg_zero, ite_self]
            rw [nodeValue_opposite, zero, neg_zero, sub_zero]
            exact le_refl _
          · exact holds_insertedMatrix inside.holds i j
  removeDimensions _ _ square fits := ensures_removeDimensions square fits
  permuteDimensions _ _ square valid := ensures_permuteDimensions square valid
  forget _ _ project square inside := ensures_forget square inside project

theorem soundOn (request : Request) : domain.SoundOn IsSquare HasPoint request where
  toSoundOn := soundOn_core request
  boundForm o f square valid below := by
    change Ensures request True (o.boundForm f) _
    unfold boundForm
    dsimp only
    split
    · rename_i empty
      exact ensures_pure fun x r inside => absurd inside (not_hasPoint_of_empty_close square empty)
    · have length : o.close.bounds.length = o.space.size := by rw [length_bounds, space_close]
      obtain ⟨i, run, -, -, spans⟩ := LinearForm.eval_spec Kind.isOutward_rational valid
        (length.symm ▸ below) fun _ mem => (isRational_bounds mem).valid
      have direct {x : List Rat} {r : ExtRat} inside reaches :
          i.Spans r := spans x ((hasPoint_close square).2 inside).inBox r reaches
      refine .ofExceptBind run ?_
      split
      · rename_i a p b q terms
        split
        · rename_i same
          refine ensures_pure fun x r inside reaches => (direct inside reaches).meet ?_
          obtain ⟨k, t, constant, sum, rfl⟩ := LinearForm.reaches_iff_nonzero.1 reaches
          obtain rfl := sum.eq_sumAt (Terms.mapM_rational_iff.1 terms)
          have pair := ((hasPoint_close square).2 inside).has_pairRange (i := a) (j := b) same
          rw [sumAt_cons, sumAt_cons, sumAt_nil, add_zero]
          exact .add Kind.noConfusion Kind.noConfusion pair (constant.toIntervalOf Kind.noConfusion)
        · exact ensures_pure fun x r => direct
      · exact ensures_pure fun x r => direct
  assignForms _ _ _ square same nodup inside valid :=
    (soundOn_core request).assignByFresh square same nodup inside valid

theorem readsBoxes (request : Request) : core.ReadsBoxes IsSquare HasPoint request where
  kind := rfl
  toBox v square := by
    apply ensures_pure
    refine ⟨(length_bounds _).trans (congrArg Space.size (space_close v)), ?_, ?_⟩
    · intro i mem
      exact (isRational_bounds mem).fits
    · intro x inside
      exact ((hasPoint_close square).2 inside).inBox

/-- No operation on octagons loses a point, whatever limit is set to the size of objects; closing
keeps exactly the points. -/
theorem no_point_excluded (request : Request) :
    domain.SoundOn IsSquare HasPoint request ∧
    (∀ s, (top s).IsSquare ∧ (bottom s).IsSquare) ∧
    (∀ o : Octagon, o.IsSquare → o.close.IsSquare ∧ o.close.space = o.space ∧
      ∀ x, o.close.HasPoint x ↔ o.HasPoint x) ∧
    (∀ v cs, v.IsSquare → (∀ c ∈ cs, c.form.Valid ∧ c.form.Below v.space.size) →
      Op.Ensures request True (domain.meetLinear v cs) fun w =>
        ∀ x, v.HasPoint x → (∀ c ∈ cs, c.Holds x) → w.HasPoint x) ∧
    (∀ v cs, v.IsSquare → (∀ c ∈ cs, c.term.Valid ∧ c.term.support ≤ v.space.size) →
      Op.Ensures request True (domain.meetTerms v cs) fun w =>
        w.IsSquare ∧ w.space = v.space ∧ (∀ x, v.HasPoint x → (∀ c ∈ cs, c.Holds x) →
          w.HasPoint x) ∧ ∀ x, w.HasPoint x → v.HasPoint x) ∧
    (∀ a b thresholds, a.IsSquare → b.IsSquare → a.space = b.space →
      (∀ c ∈ thresholds, c.form.Valid ∧ c.form.Below a.space.size) →
      (∀ c ∈ thresholds, c.form.constant.toInterval.isEmpty = false ∧
        ∀ e ∈ c.form.entries, e.2.toInterval.isEmpty = false) →
      Op.Ensures request True (domain.wideningThreshold a b thresholds) fun w =>
        w.IsSquare ∧ w.space = a.space ∧ ∀ x, a.HasPoint x ∨ b.HasPoint x → w.HasPoint x) ∧
    (∀ v dims forms, v.IsSquare → dims.length = forms.length → (∀ d ∈ dims, d < v.space.size) →
      (∀ f ∈ forms, f.Valid ∧ f.Below v.space.size) →
      Op.Ensures request True (domain.substituteForms v dims forms) fun w =>
        w.IsSquare ∧ w.space = v.space ∧ ∀ x y, v.space.IsPoint x → Assigns dims forms x y →
          v.HasPoint y → w.HasPoint x) ∧
    ∀ v dims ts, v.IsSquare → dims.length = ts.length → dims.Nodup →
      (∀ d ∈ dims, d < v.space.size) → (∀ t ∈ ts, t.IsReadable v.space.size) →
      Op.Ensures request True (domain.assignTerms v dims ts) fun w =>
        w.IsSquare ∧ w.space = v.space ∧ ∀ x y, v.HasPoint x → AssignsTerms dims ts x y →
          v.space.IsPoint y → w.HasPoint y := by
  have sound := soundOn request
  have reads := readsBoxes request
  refine ⟨sound, fun s => ⟨isSquare_top s, isSquare_bottom s⟩, ?_, ?_, ?_, ?_, ?_, ?_⟩
  · intro o square
    exact ⟨square.close, space_close o, fun _ => hasPoint_close square⟩
  · intro v cs square valid
    apply (sound.meetLinear v cs square valid).mono
    intro w ⟨_, _, keeps, _⟩ x inside holds
    exact keeps x inside fun c mem => (holds c mem).admits
  · intro v cs square valid
    exact sound.meetTerms reads square valid
  · intro a b thresholds square square' same valid inhabited
    exact sound.wideningThreshold square square' same valid inhabited
  · intro v dims forms square same inside valid
    exact sound.substituteForms square same inside valid
  · intro v dims ts square same nodup inside readable
    exact sound.toSoundOn.assignLinearized reads square same nodup inside readable

/-- The product of an integer and a real number is bounded through their ranges, and the points
where it is one stay. -/
theorem reciprocals_stay_on_hyperbola :
    let plane : Octagon := top ⟨1, 1⟩
    let hyperbola : TermConstraint :=
      ⟨.equal, .binary .sub .real .nearest (.mul (.dim 0) (.dim 1)) (.const (.rational 1)), none⟩
    Op.Returns ⟨.meetTerms, .standard, []⟩ (domain.meetTerms plane [hyperbola]) fun w =>
      w.HasPoint [2, 1 / 2] := by
  intro plane hyperbola
  obtain ⟨-, square, -, -, meet, -⟩ := no_point_excluded ⟨.meetTerms, .standard, []⟩
  have point : plane.HasPoint [2, 1 / 2] := by
    apply hasPoint_top.2
    refine ⟨rfl, fun d integer => ?_⟩
    obtain rfl : d = 0 := by simpa [Space.isInt] using integer
    rfl
  have one : (Coefficient.rational 1).toInterval.Encloses ((1 : Rat) : ℝ) :=
    Interval.encloses_ratCast.2 ⟨le_refl _, le_refl _⟩
  have holds : hyperbola.Holds [2, 1 / 2] := by
    refine ⟨0, ⟨1, 1, 0, ⟨2, 1 / 2, 1, ?_, ?_, ?_, rfl⟩, ?_, ?_, rfl⟩, rfl⟩
    · simp [Term.Takes]
    · simp [Term.Takes]
    · simp [BinaryOperator.Gives]
    · simpa [Term.Takes] using one
    · simp [BinaryOperator.Gives]
  have valid : hyperbola.term.Valid :=
    ⟨⟨trivial, trivial⟩, ⟨rfl, fun h => Kind.noConfusion h, fun h => Kind.noConfusion h⟩, by decide⟩
  have result := (meet plane [hyperbola] (square _).1 (by simpa using ⟨valid, by decide⟩))
  apply (result.returns_of_noAborts rfl).mono
  intro w kept
  obtain ⟨-, -, keeps, -⟩ := kept
  exact keeps _ point (by simpa using holds)

/-- A threshold whose range is empty counts as satisfied and empties the line. -/
theorem empty_threshold_and_overflow_lose_points :
    let line : Octagon := top ⟨0, 1⟩
    let threshold : LinearConstraint :=
      .plain .atLeast ⟨.range (.ofExt (.fin 1) (.fin (-1))), .sparse []⟩
    let sum : Term := .add (.const (.exact ⟨.double, .fin (-3 * 2 ^ 970)⟩))
      (.const (.exact ⟨.double, .fin Double.maxFinite⟩))
    let value : Rat := -3 * 2 ^ 970 + Double.maxFinite
    line.HasPoint [0] ∧ AssignsTerms [0] [sum] [0] [value] ∧
    (∃ w after, (domain.wideningThreshold line line [threshold]).run
      ⟨.widening, .standard, []⟩ .start = .ok (w, after) ∧ ¬ w.HasPoint [0]) ∧
    ∃ w after, (domain.assignTerms line [0] [sum]).run
      ⟨.assignTerms, .standard, []⟩ .start = .ok (w, after) ∧ ¬ w.HasPoint [value] := by
  intro line threshold sum value
  refine ⟨?_, ?_, ?_, ?_⟩
  · exact hasPoint_top.2 ⟨rfl, by simp [Space.isInt]⟩
  · have total := (Term.takes_exact .double (-3 * 2 ^ 970)).add
      (Term.takes_exact (x := [0]) .double Double.maxFinite)
    rw [← Rat.cast_add] at total
    exact .single total 0
  · obtain ⟨w, after, run, empty⟩ := Op.exists_run_of_any (p := Octagon.empty)
      (show ((domain.wideningThreshold line line [threshold]).run ⟨.widening, .standard, []⟩
        .start).toOption.any (·.1.empty) = true by decide +kernel)
    refine ⟨w, after, run, fun inside => ?_⟩
    simp [inside.not_empty] at empty
  · -- the lower bound that is found is above the value
    let above (w : Octagon) : Bool := w.matrix.entry 1 0 < .fin (-value - value)
    obtain ⟨w, after, run, below⟩ := Op.exists_run_of_any (p := above)
      (show ((domain.assignTerms line [0] [sum]).run ⟨.assignTerms, .standard, []⟩
        .start).toOption.any (fun r => above r.1) = true by decide +kernel)
    refine ⟨w, after, run, fun inside => ?_⟩
    have bounded : ExtRat.fin (-value - value) ≤ w.matrix.entry 1 0 := inside.holds 1 0
    exact absurd (of_decide_eq_true below) (not_lt.2 bounded)

end Enclosure.Octagon
