import Enclosure.Proofs.Polyhedron.Constraints
import Enclosure.Proofs.Soundness

/-!
# Soundness of polyhedra

Under any limit on the number of rows, and with or without strict bounds, the operations on
polyhedra lose no point.
-/

namespace Enclosure

namespace Polyhedron

open Rows (Solves)

variable {request : Request} {p a b : Polyhedron} {x y : List Rat}

/-- The points of the space that solve all rows. -/
def HasPoint (p : Polyhedron) (x : List Rat) : Prop := p.space.IsPoint x ∧ p.Contains x

theorem isPoint_of_or (same : a.space = b.space) (space : p.space = a.space)
    (inside : a.HasPoint x ∨ b.HasPoint x) : p.space.IsPoint x := by
  rcases inside with inA | inB
  · exact space ▸ inA.1
  · exact (space.trans same) ▸ inB.1

theorem sound_core (strict : Bool) (request : Request) :
    (core strict).Sound HasPoint request where
  isPoint inside := inside.1
  isBottom v := by
    refine ((ensures_isBottom v).weaken fun _ => trivial).mono fun answer h yes x inside => ?_
    exact h.1 yes x inside.2
  isLeq a b same := by
    refine ((ensures_isLeq same).weaken fun _ => trivial).mono fun answer h yes x inside => ?_
    exact ⟨(show a.space = b.space from same) ▸ inside.1, h.1 yes x inside.2⟩
  meet a b same := by
    refine (ensures_meet same).mono ?_
    rintro w ⟨space, exact⟩
    exact ⟨space, fun x inA inB => ⟨space ▸ inA.1, (exact x).2 ⟨inA.2, inB.2⟩⟩⟩
  meetLinear v cs valid := by
    refine (ensures_meetLinear strict (fun c mem => (valid c mem).1)
      fun c mem => (valid c mem).2).mono ?_
    rintro w ⟨space, keeps, within⟩
    refine ⟨space, fun x inside admits => ?_, fun x inside => ?_⟩
    · exact ⟨space ▸ inside.1, keeps x inside.1 inside.2 admits⟩
    · exact ⟨space ▸ inside.1, within x inside.2⟩
  join a b same := by
    refine ((ensures_join same).weaken fun _ => trivial).mono ?_
    rintro w ⟨space, includes⟩
    refine ⟨space, fun x inside => ⟨?_, includes x (inside.imp .right .right)⟩⟩
    exact isPoint_of_or same space inside
  widening a b same := by
    refine ((ensures_widening same).weaken fun _ => trivial).mono ?_
    rintro w ⟨space, includes⟩
    refine ⟨space, fun x inside => ⟨?_, includes x (inside.imp .right .right)⟩⟩
    exact isPoint_of_or same space inside
  addDimensions v c project fits representable := by
    refine (ensures_addDimensions fits representable).mono ?_
    rintro w ⟨space, exact⟩
    refine ⟨space, fun y point inside zeros => ⟨space ▸ point, ?_⟩⟩
    exact (exact y).2 ⟨point.length, inside.2, zeros⟩
  removeDimensions v c fits := by
    refine ((ensures_removeDimensions fits).weaken fun _ => trivial).mono ?_
    rintro w ⟨space, keeps, -⟩
    exact ⟨space, fun x inside point => ⟨point, keeps x inside.2⟩⟩
  permuteDimensions v p valid := by
    refine (ensures_permuteDimensions valid).mono ?_
    rintro w ⟨space, exact⟩
    refine ⟨space, fun y point inside => ⟨space ▸ point, ?_⟩⟩
    exact (exact y).2 ⟨point.length, inside.2⟩
  forget v dims project inside := by
    refine ((ensures_forget inside project).weaken fun _ => trivial).mono ?_
    rintro w ⟨space, keeps, -⟩
    refine ⟨space, fun x y inside point same zeros => ⟨space ▸ point, ?_⟩⟩
    exact keeps x y inside.2 point.length same zeros

theorem sound_domain (strict : Bool) (request : Request) :
    (domain strict).Sound HasPoint request where
  toSound := sound_core strict request
  boundForm v f valid below := by
    refine ((ensures_boundForm valid below).weaken fun _ => trivial).mono ?_
    exact fun i h x r inside reaches => h.1.2 x r inside.2 reaches
  assignForms v dims forms same nodup inside valid :=
    ((sound_core strict request).soundOn.assignByFresh trivial same nodup inside valid).mono
      fun _ h => h.2

theorem under_between {strict : Bool} {u v c t : Rat} (hu : Under strict u c)
    (hv : Under strict v c) (nonneg : 0 ≤ t) (le : t ≤ 1) :
    Under strict (u * t + v * (1 - t)) c := by
  have second : v * (1 - t) ≤ c * (1 - t) := mul_le_mul_of_nonneg_right hv.le (sub_nonneg.2 le)
  cases strict with
  | false =>
    have first : u * t ≤ c * t := mul_le_mul_of_nonneg_right hu nonneg
    change u * t + v * (1 - t) ≤ c
    linarith
  | true =>
    rcases nonneg.eq_or_lt with rfl | positive
    · simpa using hv
    · have first : u * t < c * t := mul_lt_mul_of_pos_right hu positive
      change u * t + v * (1 - t) < c
      linarith

theorem Contains.between (hx : p.Contains x) (hy : p.Contains y) {t : Rat} (nonneg : 0 ≤ t)
    (le : t ≤ 1) : p.Contains (List.zipWith (fun u v => u * t + v * (1 - t)) x y) := by
  refine ⟨by simp [hx.1, hy.1], fun r mem => Row.holdsAt_iff.2 ?_⟩
  have atX := Row.holdsAt_iff.1 (hx.2 r mem)
  have atY := Row.holdsAt_iff.1 (hy.2 r mem)
  rw [dot_comm, dot_zipWith (hx.1.trans hy.1.symm), dot_comm x, dot_comm y]
  exact under_between atX atY nonneg le

/-- Under any limit, with or without strict bounds, no operation on polyhedra loses a point. -/
theorem operations_keep_points (strict : Bool) (request : Request) :
    (domain strict).Sound HasPoint request ∧
    (∀ v cs, (∀ c ∈ cs, c.form.Valid ∧ c.form.Below v.space.size) →
      Op.Ensures request True ((domain strict).meetLinear v cs) fun w =>
        (∀ x, v.HasPoint x → (∀ c ∈ cs, c.Holds x) → w.HasPoint x) ∧
          ∀ x, w.HasPoint x → v.HasPoint x) ∧
    (∀ a b, a.space = b.space → Op.Ensures request True ((domain strict).join a b) fun w =>
      ∀ x y t, a.Contains x → b.Contains y → 0 ≤ t → t ≤ 1 →
        w.Contains (List.zipWith (fun u v => u * t + v * (1 - t)) x y)) ∧
    (∀ a b thresholds, a.space = b.space →
      (∀ c ∈ thresholds, c.form.Valid ∧ c.form.Below a.space.size) →
      (∀ c ∈ thresholds, c.form.constant.toInterval.isEmpty = false ∧
        ∀ e ∈ c.form.entries, e.2.toInterval.isEmpty = false) →
      Op.Ensures request True ((domain strict).wideningThreshold a b thresholds) fun w =>
        w.space = a.space ∧ ∀ x, a.HasPoint x ∨ b.HasPoint x → w.HasPoint x) ∧
    ∀ v dims forms, dims.length = forms.length → (∀ d ∈ dims, d < v.space.size) →
      (∀ f ∈ forms, f.Valid ∧ f.Below v.space.size) →
      Op.Ensures request True ((domain strict).substituteForms v dims forms) fun w =>
        w.space = v.space ∧ ∀ x y, v.space.IsPoint x → Assigns dims forms x y → v.HasPoint y →
          w.HasPoint x := by
  have sound := sound_domain strict request
  refine ⟨sound, fun v cs valid => ?_, fun a b same => ?_,
    fun a b thresholds same valid inhabited => sound.wideningThreshold same valid inhabited,
    fun v dims forms same inside valid => sound.substituteForms same inside valid⟩
  · refine (sound.meetLinear v cs valid).mono ?_
    rintro w ⟨-, keeps, within⟩
    exact ⟨fun x inside holds => keeps x inside fun c mem => (holds c mem).admits, within⟩
  · refine ((ensures_join same).weaken fun _ => trivial).mono ?_
    rintro w ⟨-, includes⟩ x y t inA inB
    exact (includes x (.inl inA)).between (includes y (.inr inB))

/-- A limit that stops the elimination at once does not lose what is between two points. -/
theorem limited_join_has_midpoint :
    let zero : Polyhedron := ⟨⟨0, 1⟩, [⟨[1], 0, false⟩, ⟨[-1], 0, false⟩], by decide⟩
    let one : Polyhedron := ⟨⟨0, 1⟩, [⟨[1], 1, false⟩, ⟨[-1], -1, false⟩], by decide⟩
    let request : Request := ⟨.join, { OperationOptions.standard with maxObjectSize := 1 }, []⟩
    request.Limited ∧ zero.space = one.space ∧
      Op.Returns request ((domain true).join zero one) fun w => w.Contains [1 / 2] := by
  intro zero one request
  refine ⟨Nat.one_pos, rfl, ?_⟩
  obtain ⟨-, -, join, -⟩ := operations_keep_points true request
  refine ((join zero one rfl).returns_of_noAborts rfl).mono fun w between => ?_
  have atZero : zero.Contains [0] := ⟨rfl, by simp [zero, Row.holdsAt, dot]⟩
  have atOne : one.Contains [1] := ⟨rfl, by simp [one, Row.holdsAt, dot]⟩
  have middle := between [0] [1] (1 / 2) atZero atOne (by norm_num) (by norm_num)
  have value : (0 : Rat) * (1 / 2) + 1 * (1 - 1 / 2) = 1 / 2 := by norm_num
  rwa [List.zipWith_cons_cons, value] at middle

/-! ### Thresholds with an empty range -/

theorem ensures_boundForm_of_isEmpty {i : Interval} (empty : i.isEmpty = true) :
    Op.Ensures request request.Limited (p.boundForm ⟨.range i, .sparse []⟩) fun r =>
      r.isEmpty = true := by
  have bottom : (Interval.bottom .rational).isEmpty = true := by decide
  have converted : (i.convert .rational).isEmpty = true := by
    rw [Interval.convert]
    split
    · exact empty
    · exact bottom
  refine (ensures_isBottom p).bind fun none _ => ?_
  cases none with
  | true => exact Op.ensures_pure bottom
  | false =>
    refine (Rows.ensures_project (width_withColumn (by simp) p.wide)).bind fun result _ => ?_
    cases result with
    | none => exact (ensures_toBox p).bind fun bounds _ => Op.ensures_ofExcept rfl converted
    | some rows =>
      refine Op.ensures_pure ?_
      change ((Rows.columnRange rows).add (i.convert .rational)).isEmpty = true
      rwa [Interval.add, converted, Bool.or_true]

theorem ensures_wideningThreshold_of_isEmpty {strict : Bool} {i : Interval}
    {c : LinearConstraint} (form : c.form = ⟨.range i, .sparse []⟩) (empty : i.isEmpty = true)
    (same : a.space = b.space) :
    Op.Ensures request True ((domain strict).wideningThreshold a b [c]) (· = bottom a.space) := by
  have satisfied (v : Polyhedron) :
      Op.Ensures request True ((domain strict).satLinear v c) (· = true) := by
    refine ((ensures_isBottom v).weaken fun _ => trivial).bind fun none _ => ?_
    cases none with
    | true => exact Op.ensures_pure rfl
    | false =>
      refine ((form ▸ ensures_boundForm_of_isEmpty empty :
        Op.Ensures request request.Limited (v.boundForm c.form) _).weaken fun _ => trivial).bind
          fun r none => Op.ensures_pure ?_
      rw [none, Bool.true_or]
  -- the same constraint is recognized as unsatisfiable when it is met
  have never : c.isUnsatisfiable = true := by
    rw [LinearConstraint.isUnsatisfiable, form]
    change (true && (i.isEmpty || _)) = true
    rw [empty, Bool.true_or, Bool.true_and]
  have quasilinear : [c].all (·.form.isQuasilinear) = true := by
    rw [List.all_cons, form]
    rfl
  refine ((ensures_widening same).weaken fun _ => trivial).bind ?_
  rintro w ⟨space, -⟩
  simp only [List.filterM, List.filterAuxM, bind_assoc]
  refine (satisfied a).bind ?_
  rintro _ rfl
  refine (satisfied b).bind ?_
  rintro _ rfl
  change Op.Ensures request True (w.meetLinear strict [c]) _
  rw [meetLinear, if_pos quasilinear, addConstraints, relaxAll, LinearBound.relax, if_pos never]
  exact Op.ensures_pure (by rw [space])

/-- The line does not stay within its own widening if a threshold is the empty range. -/
theorem threshold_without_value_loses_point :
    let line : Polyhedron := top ⟨0, 1⟩
    let threshold : LinearConstraint :=
      .plain .atLeast ⟨.range (.ofExt (.fin 1) (.fin (-1))), .sparse []⟩
    Op.Returns ⟨.widening, .standard, []⟩
      ((domain false).wideningThreshold line line [threshold]) fun w =>
        line.HasPoint [0] ∧ ¬ w.HasPoint [0] := by
  intro line threshold
  have empty : Op.Ensures ⟨.widening, .standard, []⟩ True
      ((domain false).wideningThreshold line line [threshold]) (· = bottom line.space) :=
    ensures_wideningThreshold_of_isEmpty rfl (by decide) rfl
  refine (empty.returns_of_noAborts rfl).mono ?_
  rintro w rfl
  refine ⟨⟨⟨rfl, by simp [line, top, Space.isInt]⟩, by simp [line, Space.size]⟩, fun inside => ?_⟩
  exact not_contains_bottom inside.2

end Polyhedron

end Enclosure
