import Enclosure.Proofs.Box.Images
import Enclosure.Proofs.Octagon.Exactness
import Enclosure.Proofs.Polyhedron.Exactness

/-!
# Honest reports

If an octagon or a polyhedron is reported to be exact after constraints were added, after a join, or
after an assignment or a substitution, then it has the points that it should have.
-/

namespace Enclosure

/-! ### Octagons -/

namespace Octagon

theorem meetsHonestly (request : Request) :
    core.MeetsHonestly IsSquare HasPoint request (·.form.IsRegular) := by
  intro v cs square regular
  exact (reports_meetLinear square regular).honest.mono fun w h => ⟨h.1.2, h.2⟩

theorem joinsHonestly (request : Request) : core.JoinsHonestly IsSquare HasPoint request := by
  intro a b square square' same
  exact (reports_join square square' same).honest.mono fun w h => ⟨h.1.2, h.2⟩

variable {request : Request}

theorem assignsHonestly (free : ¬ request.Limited) :
    domain.AssignsHonestly IsReliable HasPoint request fun _ _ forms =>
      ∀ f ∈ forms, f.IsRegular := by
  intro v dims forms reliable same nodup inside valid regular
  obtain ⟨shape, below⟩ := forall₂_and.1 valid
  exact (reliable.reports_assignForms free same inside shape below regular nodup).honest

theorem substitutesHonestly (free : ¬ request.Limited) :
    domain.SubstitutesHonestly IsReliable HasPoint request fun _ _ forms =>
      ∀ f ∈ forms, f.IsRegular := by
  intro v dims forms reliable same _ inside valid regular
  obtain ⟨shape, below⟩ := forall₂_and.1 valid
  exact (reliable.reports_substituteForms free same inside shape below regular).honest

end Octagon

/-! ### Polyhedra -/

namespace Polyhedron

variable {request : Request}

theorem meetsHonestly (strict : Bool) (request : Request) :
    (core strict).MeetsHonestly (fun _ => True) HasPoint request (·.form.IsRegular) := by
  intro v cs _ regular
  exact (reports_meetLinear strict regular).honest

section

variable (strict : Bool) (free : ¬ request.Limited)
include strict free

theorem joinsHonestly : (core strict).JoinsHonestly (fun _ => True) HasPoint request := by
  intro a b _ _ same
  exact (reports_join free same).honest

theorem assignsHonestly :
    (domain strict).AssignsHonestly (fun v => v.space.ints = 0) HasPoint request fun _ _ forms =>
      ∀ f ∈ forms, f.IsRegular := by
  intro v dims forms real same nodup inside valid regular
  obtain ⟨shape, below⟩ := forall₂_and.1 valid
  refine ((ensures_assignByFresh free same nodup inside shape below regular).returns
    free).honest.mono fun w h => ⟨h.1, fun y => ?_⟩
  rw [hasPoint_iff_of_real (h.1 ▸ real), h.2]
  simp only [hasPoint_iff_of_real real]

theorem substitutesHonestly :
    (domain strict).SubstitutesHonestly (fun v => v.space.ints = 0) HasPoint request
      fun _ _ forms => ∀ f ∈ forms, f.IsRegular := by
  intro v dims forms real same _ inside valid regular
  obtain ⟨shape, below⟩ := forall₂_and.1 valid
  refine ((ensures_substituteForms free same inside shape below regular).returns
    free).honest.mono fun w h => ⟨h.1, fun y => ?_⟩
  rw [hasPoint_iff_of_real (h.1 ▸ real), h.2]
  simp only [hasPoint_iff_of_real real]

end

end Polyhedron

/-- An octagon or a polyhedron that is reported to be exact has the points that it should have:
those that satisfy all constraints, those of both operands of a join, the images of all points under
an assignment, and the points with an image under a substitution. -/
theorem exact_reports_honest (request : Request) (unlimited : request.options.maxObjectSize = 0) :
    let IsBuilt := Octagon.domain.Built fun c =>
      c.IsValid ∧ c.HasProperRanges ∧ Octagon.KeepsReals c
    let regular {V : Type} (_ : V) (_ : List Nat) (forms : List LinearForm) : Prop :=
      ∀ f ∈ forms, f.IsRegular
    (Octagon.core.MeetsHonestly Octagon.IsSquare Octagon.HasPoint request (·.form.IsRegular) ∧
      Octagon.core.JoinsHonestly Octagon.IsSquare Octagon.HasPoint request ∧
      Octagon.domain.AssignsHonestly (fun v => v.space.ints = 0 ∧ IsBuilt v) Octagon.HasPoint
        request regular ∧
      Octagon.domain.SubstitutesHonestly (fun v => v.space.ints = 0 ∧ IsBuilt v) Octagon.HasPoint
        request regular) ∧
    ∀ strict,
      (Polyhedron.core strict).MeetsHonestly (fun _ => True) Polyhedron.HasPoint request
        (·.form.IsRegular) ∧
      (Polyhedron.core strict).JoinsHonestly (fun _ => True) Polyhedron.HasPoint request ∧
      (Polyhedron.domain strict).AssignsHonestly (fun v => v.space.ints = 0) Polyhedron.HasPoint
        request regular ∧
      (Polyhedron.domain strict).SubstitutesHonestly (fun v => v.space.ints = 0)
        Polyhedron.HasPoint request regular := by
  have free : ¬ request.Limited := by simp [Request.Limited, unlimited]
  intro IsBuilt regular
  constructor
  · have reliable {v : Octagon} (h : v.space.ints = 0 ∧ IsBuilt v) : v.IsReliable :=
      ⟨h.1, Octagon.keeps_markedOn.of_built h.2⟩
    exact ⟨Octagon.meetsHonestly request, Octagon.joinsHonestly request,
      fun v dims forms formed => Octagon.assignsHonestly free v dims forms (reliable formed),
      fun v dims forms formed => Octagon.substitutesHonestly free v dims forms (reliable formed)⟩
  · exact fun strict => ⟨Polyhedron.meetsHonestly strict request,
      Polyhedron.joinsHonestly strict free, Polyhedron.assignsHonestly strict free,
      Polyhedron.substitutesHonestly strict free⟩

/-- The sum of a dimension and a number between zero and one is assigned exactly, and so is a strict
bound kept that is asked for. -/
theorem range_assigned_and_bound_kept :
    let request : Request := ⟨.assignForms, .standard, []⟩
    let sum : LinearForm := ⟨.range (.ofExt (.fin 0) (.fin 1)), .sparse [(1, .rational 1)]⟩
    let strip : Octagon := ⟨⟨0, 2⟩, ⟨[[.fin 0, .posInf, .fin 1, .posInf],
      [.posInf, .fin 0, .posInf, .fin 0], [.fin 0, .posInf, .fin 0, .posInf],
      [.posInf, .fin 1, .posInf, .fin 0]]⟩, true, false, false⟩
    let positive : LinearConstraint := ⟨.above, ⟨.rational 0, .sparse [(0, .rational 1)]⟩, none⟩
    let ray : Polyhedron := ⟨⟨0, 1⟩, [⟨[-1], 0, true⟩], by decide⟩
    ((Octagon.domain.assignForms (.top ⟨0, 2⟩) [0] [sum]).run request .start).toOption.any
        (fun r => r.2.exact && decide (r.1 = strip)) = true ∧
      strip.HasPoint [5 / 2, 2] ∧ ¬ strip.HasPoint [1, 2] ∧
    (((Polyhedron.domain true).meetLinear (.top ⟨0, 1⟩) [positive]).run request .start).toOption.any
        (fun r => r.2.exact && decide (r.1 = ray)) = true ∧
      ray.HasPoint [1] ∧ ¬ ray.HasPoint [0] := by
  intro request sum strip positive ray
  have assigned : ((Octagon.domain.assignForms (.top ⟨0, 2⟩) [0] [sum]).run request
      .start).toOption.any (fun r => r.2.exact && decide (r.1 = strip)) = true := by decide +kernel
  have met : (((Polyhedron.domain true).meetLinear (.top ⟨0, 1⟩) [positive]).run request
      .start).toOption.any (fun r => r.2.exact && decide (r.1 = ray)) = true := by decide +kernel
  have built : Octagon.domain.Built
      (fun c => c.IsValid ∧ c.HasProperRanges ∧ Octagon.KeepsReals c) (.top ⟨0, 2⟩) :=
    Domain.built_of_any (c := .top ⟨0, 2⟩) ⟨trivial, trivial, trivial⟩
      (by simp [Construction.operands]) request (by decide +kernel)
  have one (d : Nat) : ∀ e ∈ [(d, Coefficient.rational 1)], e.2.Valid :=
    List.forall_mem_singleton.2 trivial
  have value (x : List Rat) (d : Nat) (q : Rat) :
      Terms.SumsTo x [(d, Coefficient.rational 1)] q ↔ q = x.getD d 0 := by
    simp [Terms.sumsTo_cons, sub_eq_zero]
  have upToOne (q : Rat) : sum.constant.Has q ↔ 0 ≤ q ∧ q ≤ 1 := Interval.has_ofExt_fin
  obtain ⟨⟨-, -, assigns, -⟩, polyhedra⟩ := exact_reports_honest request rfl
  obtain ⟨-, images⟩ := (assigns (.top ⟨0, 2⟩) [0] [sum] ⟨rfl, built⟩ rfl (by decide) (by decide)
    (List.forall_mem_singleton.2 ⟨⟨by decide, one 1, (Interval.isRational_ofExt _ _).valid⟩,
      by unfold LinearForm.Below; decide⟩)
    (List.forall_mem_singleton.2 ⟨by decide, 0, (upToOne 0).2 (by norm_num)⟩)).of_any assigned
  obtain ⟨-, points⟩ := ((polyhedra true).1 (.top ⟨0, 1⟩) [positive] trivial
    (List.forall_mem_singleton.2 ⟨⟨by decide, one 0, trivial⟩, by unfold LinearForm.Below; decide,
      by decide, 0, by simp [positive]⟩)).of_any met
  have line (q : Rat) : Polyhedron.HasPoint (.top ⟨0, 1⟩) [q] :=
    ⟨Space.isPoint_of_real rfl rfl, Polyhedron.contains_top.2 rfl⟩
  refine ⟨assigned, (images _).2 ?_, fun inside => ?_, met, (points _).2 ⟨line 1, ?_⟩,
    fun inside => ?_⟩
  · refine ⟨[0, 2], Octagon.hasPoint_top.2 (Space.isPoint_of_real rfl rfl), [5 / 2], ?_, rfl⟩
    refine .cons ⟨1 / 2, (upToOne _).2 (by norm_num), (value _ 1 _).2 (by norm_num)⟩ .nil
  · obtain ⟨x, inTop, vs, values, eq⟩ := (images _).1 inside
    obtain ⟨first, vs, ⟨k, has, sums⟩, -, rfl⟩ := List.forall₂_cons_left_iff.1 values
    obtain ⟨a, b, rfl⟩ := List.length_eq_two.1 (Octagon.hasPoint_top.1 inTop).length
    have image : [first, b] = [1, 2] := eq.symm
    obtain ⟨rfl, rfl⟩ : first = 1 ∧ b = 2 := by simpa using image
    have gap : 1 - k = 2 := (value _ 1 _).1 sums
    linarith [((upToOne k).1 has).1]
  · refine List.forall_mem_singleton.2 ⟨1, ⟨0, by simp [positive], ?_⟩, zero_lt_one⟩
    exact (value _ 0 _).2 (by norm_num)
  · obtain ⟨v, ⟨k, has, sums⟩, above⟩ := List.forall_mem_singleton.1 ((points _).1 inside).2
    have zero : k = 0 := Coefficient.has_rational.1 has
    have same : v - k = 0 := (value _ 0 _).1 sums
    have above : 0 < v := above
    linarith

/-! ### Reports that are not honest -/

namespace Octagon

def retypedZero : Octagon :=
  ⟨⟨0, 2⟩, ⟨[[.fin 0, .fin 0, .posInf, .fin (1 / 2)], [.fin 0, .fin 0, .posInf, .fin 0],
    [.fin 0, .fin (1 / 2), .fin 0, .fin 1], [.posInf, .posInf, .posInf, .fin 0]]⟩,
    true, false, false⟩

theorem built_retypedZero : domain.Built (fun c => c.IsValid ∧ c.HasProperRanges) retypedZero :=
  built_of_retyping
    (chain ++ [⟨.atLeast, ⟨.rational 0, .sparse [(0, .rational 1)]⟩, none⟩]) (by decide +kernel)

end Octagon

/-- With an empty interval whose bounds do not cross, an assignment to no point is reported to be
exact and has a point. -/
theorem improper_or_retyped_not_honest :
    let request : Request := ⟨.meet, .standard, []⟩
    let zero : LinearForm := ⟨.rational 0, .sparse []⟩
    let never : LinearConstraint :=
      ⟨.atLeast, ⟨.exact (.rational .negInf), .sparse [(0, .rational 1)]⟩, none⟩
    (∃ v : Octagon, Octagon.domain.Built (fun c => c.IsValid ∧ Octagon.KeepsReals c) v ∧
      v.space = ⟨0, 1⟩ ∧ ¬ Op.Honest request (Octagon.domain.assignForms v [0] [zero]) fun w =>
        ∀ y, w.HasPoint y ↔ ∃ x, v.HasPoint x ∧ Assigns [0] [zero] x y) ∧
    (∃ v : Octagon, Octagon.domain.Built (fun c => c.IsValid ∧ c.HasProperRanges) v ∧
      v.space = ⟨0, 2⟩ ∧ ¬ Op.Honest request (Octagon.domain.substituteForms v [0] [zero]) fun w =>
        ∀ x, w.HasPoint x ↔ ∃ y, Assigns [0] [zero] x y ∧ v.HasPoint y) ∧
    (¬ Op.Honest request (Octagon.domain.meetLinear (.top ⟨0, 1⟩) [never]) fun w =>
      ∀ x, w.HasPoint x ↔ Octagon.HasPoint (.top ⟨0, 1⟩) x ∧ ∀ c ∈ [never], c.Holds x) ∧
    ∀ strict, ¬ Op.Honest request ((Polyhedron.domain strict).meetLinear (.top ⟨0, 1⟩) [never])
      fun w => ∀ x, w.HasPoint x ↔
        Polyhedron.HasPoint (.top ⟨0, 1⟩) x ∧ ∀ c ∈ [never], c.Holds x := by
  intro request zero never
  have nowhere {x : List Rat} : ¬ ∀ c ∈ [never], c.Holds x := by
    intro all
    obtain ⟨v, ⟨k, has, -⟩, -⟩ := List.forall_mem_singleton.1 all
    exact ExtRat.not_fin_le_negInf has.2
  refine ⟨⟨Octagon.beyond, ?_, rfl, fun honest => ?_⟩,
    ⟨Octagon.retypedZero, Octagon.built_retypedZero, rfl, fun honest => ?_⟩, fun honest => ?_,
    fun strict honest => ?_⟩
  · exact Domain.built_of_any (c := .ofBox ⟨0, 1⟩ [.ofExt .posInf .posInf]) ⟨trivial, trivial⟩
      (by simp [Construction.operands]) request (by decide +kernel)
  · have images := honest.of_any (a := ⟨⟨0, 1⟩, ⟨[[.fin 0, .fin 0], [.fin 0, .fin 0]]⟩, true, false,
      false⟩) (by decide +kernel)
    obtain ⟨x, inside, -⟩ := (images [0]).1 (Octagon.hasPoint_iff.2
      ⟨rfl, Space.isPoint_of_real rfl rfl, BoundMatrix.holds_of_square (n := 2) ⟨rfl, by decide⟩
        (by decide +kernel)⟩)
    have never : ExtRat.fin _ ≤ .negInf := inside.holds 1 0
    exact ExtRat.not_fin_le_negInf never
  · have points := honest.of_any (a := ⟨⟨0, 2⟩, ⟨[[.fin 0, .posInf, .posInf, .posInf],
      [.posInf, .fin 0, .posInf, .posInf], [.posInf, .posInf, .fin 0, .fin 1],
      [.posInf, .posInf, .posInf, .fin 0]]⟩, true, false, false⟩) (by decide +kernel)
    obtain ⟨y, ⟨vs, values, rfl⟩, inside⟩ := (points [0, 1 / 2]).1 (Octagon.hasPoint_iff.2
      ⟨rfl, Space.isPoint_of_real rfl rfl, BoundMatrix.holds_of_square (n := 4) ⟨rfl, by decide⟩
        (by decide +kernel)⟩)
    obtain ⟨v, rest, -, none, rfl⟩ := List.forall₂_cons_left_iff.1 values
    obtain rfl := List.forall₂_nil_left_iff.1 none
    have order : ExtRat.fin (1 / 2 - v) ≤ .fin 0 := inside.holds 2 0
    have upper : ExtRat.fin (v - -v) ≤ .fin 0 := inside.holds 0 1
    rw [ExtRat.fin_le_fin] at order upper
    linarith
  · have points := honest.of_any (a := .top ⟨0, 1⟩) (by decide +kernel)
    have inside : Octagon.HasPoint (.top ⟨0, 1⟩) [0] :=
      Octagon.hasPoint_top.2 (Space.isPoint_of_real rfl rfl)
    exact nowhere ((points [0]).1 inside).2
  · have points := honest.of_any (a := .top ⟨0, 1⟩) (by cases strict <;> decide +kernel)
    have inside : Polyhedron.HasPoint (.top ⟨0, 1⟩) [0] :=
      ⟨Space.isPoint_of_real rfl rfl, Polyhedron.contains_top.2 rfl⟩
    exact nowhere ((points [0]).1 inside).2

/-! ### Boxes -/

namespace Box

variable {request : Request}

theorem meetsHonestly (request : Request) :
    (core .rational).MeetsHonestly (IsOf .rational) HasPoint request fun c =>
      c.form.IsNumeric ∧ (c.comparison = .above → c.form.nonzero = []) := by
  intro v cs hv valid
  have reports : Op.Reports request (propagate .rational v cs) _ _ := reports_propagate
    Kind.isOutward_rational (fits_rational_iff.2 hv)
    (fun c mem => ⟨(valid c mem).1, (valid c mem).2.1⟩)
    fun c mem => (valid c mem).2.2.1.isSharp
  refine reports.honest.mono fun w h => ⟨h.1.2.1, fun x => ?_⟩
  obtain ⟨⟨-, -, keeps, within⟩, exact⟩ := h
  refine ⟨fun inside => ⟨within x inside, fun c mem => ?_⟩,
    fun h => keeps x h.1 fun c mem => (h.2 c mem).admits⟩
  rw [← LinearConstraint.loosen_eq_self (valid c mem).2.2.2]
  exact exact x inside c mem

theorem joinsHonestly (request : Request) :
    (core .rational).JoinsHonestly (IsOf .rational) HasPoint request := by
  intro a b ha hb same
  exact (reports_join (fits_rational_iff.2 ha) (fits_rational_iff.2 hb) same).honest.mono
    fun w h => ⟨h.1.2, h.2⟩

end Box

/-- What the exact reports of boxes with rational bounds are worth. -/
theorem exact_reports_of_boxes (request : Request) :
    (∀ v cs, Box.IsOf .rational v →
      (∀ c ∈ cs, c.form.Valid ∧ c.form.Below v.space.size ∧ c.form.IsNumeric) →
      Op.Honest request ((Box.domain .rational).meetLinear v cs) fun w =>
        w.space = v.space ∧ (∀ x, v.HasPoint x → (∀ c ∈ cs, c.Holds x) → w.HasPoint x) ∧
          ∀ x, w.HasPoint x → v.HasPoint x ∧ ∀ c ∈ cs, c.loosen.Holds x) ∧
    (Box.core .rational).MeetsHonestly (Box.IsOf .rational) Box.HasPoint request (fun c =>
      c.form.IsNumeric ∧ (c.comparison = .above → c.form.nonzero = [])) ∧
    (Box.core .rational).JoinsHonestly (Box.IsOf .rational) Box.HasPoint request ∧
    ∀ v dims forms, Box.IsOf .rational v → v.space.ints = 0 →
      (v.isEmpty = true ∨ ∃ x, v.HasPoint x) → dims.length = forms.length → dims.Nodup →
      (∀ d ∈ dims, d < v.space.size) →
      (∀ f ∈ forms, f.Valid ∧ f.Below v.space.size ∧ f.IsNumeric) →
      Op.Honest request ((Box.domain .rational).assignForms v dims forms) fun w =>
        w.space = v.space ∧ ((∀ y, w.HasPoint y ↔ ∃ x, v.HasPoint x ∧ Assigns dims forms x y) ↔
          v.Separates dims forms) := by
  refine ⟨fun v cs hv valid => ?_, Box.meetsHonestly request, Box.joinsHonestly request, ?_⟩
  · have reports : Op.Reports request (Box.propagate .rational v cs) _ _ := Box.reports_propagate
      Kind.isOutward_rational (Box.fits_rational_iff.2 hv)
      (fun c mem => ⟨(valid c mem).1, (valid c mem).2.1⟩)
      fun c mem => (valid c mem).2.2.isSharp
    refine reports.honest.mono fun w h => ?_
    obtain ⟨⟨-, space, keeps, within⟩, exact⟩ := h
    exact ⟨space, fun x inside holds => keeps x inside fun c mem => (holds c mem).admits,
      fun x inside => ⟨within x inside, exact x inside⟩⟩
  · intro v dims forms hv real proper same nodup inside valid
    exact (Box.reports_assignForms hv real proper same nodup inside
      (fun f mem => ⟨(valid f mem).1, (valid f mem).2.1⟩) fun f mem => (valid f mem).2.2).honest

/-- Two dimensions are exchanged exactly, while one of them is moved. -/
theorem exchange_assigned_exactly :
    let request : Request := ⟨.assignForms, .standard, []⟩
    let first : LinearForm := ⟨.rational 0, .sparse [(1, .rational 1)]⟩
    let second : LinearForm := ⟨.rational 1, .sparse [(0, .rational 2)]⟩
    let before : Box := .ranges ⟨0, 2⟩ [.ofExt (.fin 0) (.fin 1), .ofExt (.fin 2) (.fin 3)]
    let after : Box := .ranges ⟨0, 2⟩ [.ofExt (.fin 2) (.fin 3), .ofExt (.fin 1) (.fin 3)]
    (((Box.domain .rational).assignForms before [0, 1] [first, second]).run request
      .start).toOption.any (fun r => r.2.exact && decide (r.1 = after)) = true ∧
    before.Separates [0, 1] [first, second] ∧ ∀ y, after.HasPoint y ↔
      ∃ x, before.HasPoint x ∧ Assigns [0, 1] [first, second] x y := by
  intro request first second before after
  have run : (((Box.domain .rational).assignForms before [0, 1] [first, second]).run request
      .start).toOption.any (fun r => r.2.exact && decide (r.1 = after)) = true := by decide +kernel
  have separates : before.Separates [0, 1] [first, second] := by
    have source : ∀ d < 2, (sourceForm [0, 1] [first, second] d).nonzero.map Prod.fst = [1 - d] :=
      by decide +kernel
    have reads {d e : Nat} (low : d < 2) (h : (sourceForm [0, 1] [first, second] d).Reads e) :
        e = 1 - d := by
      obtain ⟨c, mem⟩ := h
      exact List.mem_singleton.1 (source d low ▸ List.mem_map_of_mem (f := Prod.fst) mem)
    intro d low d' low' e h h'
    have left := reads low h
    have right := reads low' h'
    have below : d < 2 ∧ d' < 2 := ⟨low, low'⟩
    omega
  have kinds : before.IsOf .rational := by
    refine ⟨⟨rfl, by decide⟩, ?_⟩
    simp [before, Box.bounds, Interval.isOf_rational_iff, Interval.isRational_ofExt]
  have point : before.HasPoint [0, 2] := by
    refine ⟨Space.isPoint_of_real rfl rfl, ?_⟩
    norm_num
  have valid : ∀ f ∈ [first, second], f.Valid ∧ f.Below 2 ∧ f.IsNumeric := by
    have numbers (t p : Rat) {d : Nat} (low : d < 2) :
        let f : LinearForm := ⟨.rational t, .sparse [(d, .rational p)]⟩
        f.Valid ∧ f.Below 2 ∧ f.IsNumeric := by
      refine ⟨⟨List.nodup_singleton d, List.forall_mem_singleton.2 trivial, trivial⟩, ?_,
        rfl, List.forall_mem_singleton.2 rfl⟩
      intro e mem
      rw [List.mem_singleton.1 (LinearForm.mem_nonzero.1 mem).1]
      exact low
    simpa using ⟨numbers 0 1 Nat.one_lt_two, numbers 1 2 Nat.zero_lt_two⟩
  obtain ⟨-, -, -, assigns⟩ := exact_reports_of_boxes request
  have images := (assigns before [0, 1] [first, second] kinds rfl (.inr ⟨_, point⟩) rfl (by decide)
    (by decide) valid).of_any run
  exact ⟨run, separates, images.2.2 separates⟩

/-- An exact report does not say that a strict bound is kept, that dimensions which were made equal
are equal in the result, or that nothing comes from no points. -/
theorem strict_shared_or_improper_not_honest :
    let request : Request := ⟨.meet, .standard, []⟩
    let positive : LinearConstraint := ⟨.above, .ofDimension 0, none⟩
    let zero : LinearForm := ⟨.rational 0, .sparse []⟩
    let segment : Box := .ranges ⟨0, 1⟩ [.ofExt (.fin 0) (.fin 1)]
    let square : Box := .ranges ⟨0, 2⟩ [.ofExt (.fin 0) (.fin 1), .ofExt (.fin 0) (.fin 1)]
    let beyond : Box := .ranges ⟨0, 1⟩ [.ofExt .posInf .posInf]
    (¬ Op.Honest request ((Box.domain .rational).meetLinear segment [positive]) fun w =>
      ∀ x, w.HasPoint x ↔ segment.HasPoint x ∧ ∀ c ∈ [positive], c.Holds x) ∧
    (¬ Op.Honest request ((Box.domain .rational).assignForms square [0] [.ofDimension 1]) fun w =>
      ∀ y, w.HasPoint y ↔ ∃ x, square.HasPoint x ∧ Assigns [0] [.ofDimension 1] x y) ∧
    ¬ Op.Honest request ((Box.domain .rational).assignForms beyond [0] [zero]) fun w =>
      ∀ y, w.HasPoint y ↔ ∃ x, beyond.HasPoint x ∧ Assigns [0] [zero] x y := by
  intro request positive zero segment square beyond
  refine ⟨fun honest => ?_, fun honest => ?_, fun honest => ?_⟩
  · have points := honest.of_any (a := segment) (by decide +kernel)
    obtain ⟨-, holds⟩ := (points [0]).1 ⟨Space.isPoint_of_real rfl rfl, by norm_num⟩
    obtain ⟨v, takes, above⟩ := holds positive (by simp)
    rw [LinearForm.takes_ofDimension.1 takes] at above
    exact lt_irrefl _ above
  · have images := honest.of_any (a := square) (by decide +kernel)
    obtain ⟨x, inside, vs, values, image⟩ := (images [0, 1]).1
      ⟨Space.isPoint_of_real rfl rfl, by norm_num⟩
    obtain ⟨q, vs, takes, -, rfl⟩ := List.forall₂_cons_left_iff.1 values
    obtain ⟨a, b, rfl⟩ := List.length_eq_two.1 inside.isPoint.length
    have image : [0, 1] = [q, b] := image
    obtain ⟨rfl, rfl⟩ : 0 = q ∧ 1 = b := by simpa using image
    exact absurd (LinearForm.takes_ofDimension.1 takes) (by norm_num)
  · have images := honest.of_any (a := .ranges ⟨0, 1⟩ [.ofExt (.fin 0) (.fin 0)])
      (by decide +kernel)
    obtain ⟨x, inside, -⟩ := (images [0]).1 ⟨Space.isPoint_of_real rfl rfl, by simp⟩
    exact ExtRat.not_posInf_le_fin (inside.2 0 _ rfl).1

end Enclosure
