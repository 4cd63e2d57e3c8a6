import Enclosure.Proofs.Bounds
import Enclosure.Proofs.Reports

/-!
# Constraints that are relaxed without a loss

A regular constraint has finite numbers as coefficients, and a constant with a value.
-/

namespace Enclosure

/-- The comparison is no disequality, and a congruence only without a modulus other than zero. -/
def Comparison.IsExpressible (c : Comparison) (modulus : Option Number) : Prop :=
  c ≠ .notEqual ∧ (c = .congruent → ∀ m, modulus = some m → m.isZero = true)

theorem Comparison.isExpressible_of_plain {c : Comparison} {modulus : Option Number}
    (plain : c = .equal ∨ c = .atLeast ∨ c = .above) : c.IsExpressible modulus := by
  rcases plain with rfl | rfl | rfl <;> exact ⟨Comparison.noConfusion, Comparison.noConfusion⟩

namespace LinearBound

variable {b : LinearBound} {s : Space} {x cs : List Rat} {lo hi : ExtRat} {bs : List LinearBound}

theorem implied?_ne_none {comparison : Comparison} {modulus : Option Number}
    (expressible : comparison.IsExpressible modulus) :
    implied? comparison modulus cs lo hi ≠ none := by
  cases comparison with
  | congruent =>
    cases modulus with
    | none => simp [implied?]
    | some m => simp [implied?, expressible.2 rfl m rfl]
  | notEqual => exact absurd rfl expressible.1
  | _ => simp [implied?]

/-! ### Normal forms -/

theorem allZero_primitive (matters : allZero b.coeffs = false) :
    allZero b.primitive.coeffs = false := by
  obtain ⟨p, q, hp, hq, same⟩ := exists_primitive_eq matters
  rw [same, allZero_scale hq.ne', allZero_scale hp.ne', matters]

theorem allZero_normalize (possible : (b.normalize s).1 = true)
    (open' : (b.normalize s).2.trivial? ≠ some true) :
    allZero (b.normalize s).2.coeffs = false := by
  unfold normalize at possible open' ⊢
  cases constant : b.trivial? with
  | some holds =>
    rw [constant] at possible open'
    obtain rfl : holds = true := possible
    exact absurd constant open'
  | none =>
    have matters : allZero b.coeffs = false := by
      by_contra zero
      simp [trivial?, Bool.not_eq_false _ ▸ zero] at constant
    dsimp only
    split
    · unfold tighten
      split <;> exact allZero_primitive matters
    · exact allZero_primitive matters

theorem allZero_of_mem_normalizeAll {cs : List LinearBound} (normal : normalizeAll s bs = some cs) :
    ∀ c ∈ cs, allZero c.coeffs = false := by
  intro c mem
  obtain ⟨b, -, step, _⟩ := exists_of_mem_normalizeAll normal c mem
  simpa only [step] using allZero_normalize (b := b) (s := s) (by rw [step]) (by rwa [step])

/-! ### Relaxation -/

variable {request : Request} {c : LinearConstraint} {bounds : List Interval}

theorem reports_relax (valid : c.form.Valid) (below : c.form.Below s.size)
    (regular : c.form.IsRegular) :
    Op.Reports request (relax c bounds s)
      (fun result => ∀ bs, result = some bs →
        ∀ b ∈ bs, b.coeffs.length = s.size ∧ allZero b.coeffs = false)
      fun result => ∀ x, s.IsPoint x →
        ((∃ bs, result = some bs ∧ ∀ b ∈ bs, b.holdsAt x = true) ↔ c.Holds x) := by
  cases unsatisfiable : c.isUnsatisfiable with
  | true =>
    rw [relax, if_pos unsatisfiable]
    refine Op.reports_pure (by simp) fun x _ => iff_of_false (by simp) fun holds => ?_
    exact LinearConstraint.not_admits_of_isUnsatisfiable unsatisfiable x holds.admits
  | false =>
    obtain ⟨cs, run, width, -, -, sums⟩ := exists_coefficients valid below regular.finite_nonzero
    rw [relax_eq unsatisfiable regular.isQuasilinear run]
    cases found : implied? c.comparison c.modulus cs
      (c.form.constant.toInterval.convert .rational).lo.value
      (c.form.constant.toInterval.convert .rational).hi.value with
    | none => exact .markInexactBind (Op.reports_pure (by simp) trivial)
    | some implied =>
      refine Op.reports_pure (fun bs normal b mem => ⟨?_, allZero_of_mem_normalizeAll normal b mem⟩)
        fun x point => ?_
      · have lengths := coeffs_of_mem_implied? (P := (·.length = s.size)) found width
          (by simpa using width)
        exact coeffs_of_mem_normalizeAll (P := (·.length = s.size)) (by simp) normal lengths b mem
      · rw [← holdsAt_implied?_iff_holds regular.inhabited (sums x point.length) found]
        exact (holdsAt_normalizeAll fun b _ => holdsAt_normalize (.inl point)).symm

theorem settles_relax {P : List Rat → Prop} (valid : c.form.Valid) (below : c.form.Below s.size)
    (regular : c.form.IsRegular) (expressible : c.comparison.IsExpressible c.modulus)
    (scaled : ∀ cs q, P cs → P (cs.map (· * q)))
    (coefficients : ∀ cs, cs.length = s.size →
      (∀ d, d ∉ c.form.nonzero.map Prod.fst → cs.getD d 0 = 0) →
      (∀ e ∈ c.form.nonzero, ∃ q, e.2.rational? = some q ∧ cs.getD e.1 0 = -q) → P cs) :
    Op.Settles request (relax c bounds s) fun result => ∀ bs, result = some bs → ∀ b ∈ bs,
      P b.coeffs ∧ (c.comparison ≠ .above → b.relation ≠ .below) := by
  cases unsatisfiable : c.isUnsatisfiable with
  | true =>
    rw [relax, if_pos unsatisfiable]
    exact Op.settles_pure (by simp)
  | false =>
    obtain ⟨cs, run, width, others, values, -⟩ :=
      exists_coefficients valid below regular.finite_nonzero
    have start : P cs := coefficients cs width others values
    rw [relax_eq unsatisfiable regular.isQuasilinear run]
    cases found : implied? c.comparison c.modulus cs
      (c.form.constant.toInterval.convert .rational).lo.value
      (c.form.constant.toInterval.convert .rational).hi.value with
    | none => exact absurd found (implied?_ne_none expressible)
    | some implied =>
      refine Op.settles_pure fun bs normal b mem => ⟨?_, fun loose => ?_⟩
      · have negated : P (cs.map (- ·)) := by simpa using scaled cs (-1) start
        exact coeffs_of_mem_normalizeAll scaled normal (coeffs_of_mem_implied? found start negated)
          b mem
      · refine of_mem_normalizeAll (P := (·.relation ≠ .below)) (fun _ => relation_normalize) normal
          (of_mem_implied? found ?_ ?_) b mem
        · exact fun _ _ strict below => loose (strict below)
        · simp

theorem finite_of_holds (holds : c.Holds x) :
    ∀ e ∈ c.form.entries, e.2.isExact = true → e.2.rational? ≠ none := by
  intro e mem number
  obtain ⟨v, ⟨k, -, sum⟩, -⟩ := holds
  obtain ⟨q, has⟩ := sum.exists_has e mem
  exact has.rational?_ne_none number

/-- A constraint on the dimensions of a space is relaxed to bounds that hold at every point within
the given ranges at which it holds for some choice of its coefficients. -/
theorem relaxed_soundly_and_exactly (request : Request) (c : LinearConstraint)
    (bounds : List Interval) (s : Space) (valid : c.form.Valid) (below : c.form.Below s.size) :
    (bounds.length = s.size → (∀ i ∈ bounds, i.Valid) →
      ∀ x, s.IsPoint x → InBox bounds x → c.Holds x →
        Op.Returns request (relax c bounds s) fun result =>
          ∃ bs, result = some bs ∧ ∀ b ∈ bs, b.holdsAt x = true) ∧
    ((∀ e ∈ c.form.entries, e.2.rational?.isSome = true) →
      c.form.constant.toInterval.isEmpty = false → c.form.constant.toInterval.IsProper →
      c.comparison.IsExpressible c.modulus →
        Op.Returns request (relax c bounds s) fun result =>
          (∀ bs, result = some bs →
            ∀ x, s.IsPoint x → ((∀ b ∈ bs, b.holdsAt x = true) ↔ c.Holds x)) ∧
          (result = none → ∀ x, s.IsPoint x → ¬ c.Holds x)) := by
  constructor
  · intro length ranges x point box holds
    obtain ⟨g, form, -, -, -, -, finite, -⟩ := LinearForm.quasilinearize_spec
      Kind.isOutward_rational valid (length.symm ▸ below) ranges
    have finite' : ∀ g', c.form.quasilinearize bounds .rational = .ok g' →
        ¬ ∃ e ∈ g'.nonzero, e.2.rational? = none := by
      intro g' form' infinite
      obtain rfl := Except.ok.inj (form.symm.trans form')
      obtain ⟨e, mem, none⟩ := infinite
      exact finite (finite_of_holds holds) e (LinearForm.mem_nonzero.1 mem).1 none
    have relaxed : Op.Ensures request False (relax c bounds s) _ :=
      ensures_relax valid length ranges below finite'
    exact (relaxed.returns not_false).mono fun result h => h.2 x point box holds.admits
  · intro finite full proper expressible
    have regular : c.form.IsRegular := ⟨finite, proper.exists_has full⟩
    have settles : Op.Settles request (relax c bounds s) _ := settles_relax (P := fun _ => True)
      valid below regular expressible (fun _ _ _ => trivial) fun _ _ _ _ => trivial
    refine ((reports_relax valid below regular).returns_of_settles settles).mono fun result h => ?_
    refine ⟨fun bs some x point => ?_, fun none x point holds => ?_⟩
    · rw [← h.2 x point, some]
      simp
    · obtain ⟨bs, some, -⟩ := (h.2 x point).2 holds
      rw [none] at some
      cases some

/-- A range among the coefficients goes into the bound, here from the values of an integer and a
real dimension. -/
theorem ranges_relaxed :
    let s : Space := ⟨1, 1⟩
    let request : Request := ⟨.meetLinear, .standard, []⟩
    let bounds : List Interval := [.ofExt (.fin 0) (.fin 3), .ofExt (.fin 0) (.fin 10)]
    let slope : LinearConstraint := ⟨.atLeast, ⟨.rational 0,
      .sparse [(0, .range (.ofExt (.fin 1) (.fin 2))), (1, .rational (-1))]⟩, none⟩
    let around : LinearBound := ⟨[-1, 1], 3, .atMost⟩
    let even : LinearConstraint :=
      ⟨.equal, ⟨.range (.ofExt (.fin (-3)) (.fin (-1))), .sparse [(0, .rational 2)]⟩, none⟩
    let atOne : List LinearBound := [⟨[-1, 0], -1, .atMost⟩, ⟨[1, 0], 1, .atMost⟩]
    (s.IsPoint [2, 3] ∧ InBox bounds [2, 3] ∧ slope.Holds [2, 3] ∧
      ((relax slope bounds s).run request .start).toOption.any
        (fun r => decide (r.1 = some [around])) = true ∧ around.holdsAt [2, 3] = true) ∧
    ((relax even [] s).run request .start).toOption.any
        (fun r => decide (r.1 = some atOne)) = true ∧
      even.Holds [1, 1 / 2] ∧ ¬ even.Holds [2, 1 / 2] := by
  intro s request bounds slope around even atOne
  have ranged (lo hi : Rat) : (Interval.ofExt (.fin lo) (.fin hi)).Valid :=
    (Interval.isRational_ofExt _ _).valid
  have point : s.IsPoint [2, 3] := ⟨rfl, by simp +decide [s, Space.isInt]⟩
  have box : InBox bounds [2, 3] := by
    simp only [bounds, inBox_cons, inBox_nil, Interval.has_ofExt_fin]
    norm_num
  have holds : slope.Holds [2, 3] := by
    refine ⟨1, ⟨0, Coefficient.has_rational.2 rfl, Terms.sumsTo_cons.2 ⟨2, ?_, ?_⟩⟩, zero_le_one⟩
    · exact Interval.has_ofExt_fin.2 (by norm_num)
    · exact Terms.sumsTo_cons.2 ⟨-1, Coefficient.has_rational.2 rfl, by norm_num⟩
  have relaxedSlope : ((relax slope bounds s).run request .start).toOption.any
      (fun r => decide (r.1 = some [around])) = true := by decide +kernel
  have relaxedEven : ((relax even [] s).run request .start).toOption.any
      (fun r => decide (r.1 = some atOne)) = true := by decide +kernel
  obtain ⟨sound, -⟩ := relaxed_soundly_and_exactly request slope bounds s
    ⟨by decide, List.forall_mem_cons.2 ⟨ranged 1 2, List.forall_mem_singleton.2 trivial⟩, trivial⟩
    (by unfold LinearForm.Below; decide)
  obtain ⟨-, exactly⟩ := relaxed_soundly_and_exactly request even [] s
    ⟨by decide, List.forall_mem_singleton.2 trivial, ranged (-3) (-1)⟩
    (by unfold LinearForm.Below; decide)
  obtain ⟨bs, same, hold⟩ := (sound rfl (by simp [bounds, ranged]) _ point box holds).of_any
    relaxedSlope
  have expressible : even.comparison.IsExpressible even.modulus := ⟨by decide, by decide⟩
  obtain ⟨points, -⟩ := (exactly (by decide) (by decide) ⟨by decide, by decide⟩ expressible).of_any
    relaxedEven
  have points (q : Rat) (integer : q.den = 1) :
      (∀ b ∈ atOne, b.holdsAt [q, 1 / 2] = true) ↔ even.Holds [q, 1 / 2] :=
    points atOne rfl [q, 1 / 2] ⟨rfl, by simp +contextual [s, Space.isInt, integer]⟩
  refine ⟨⟨point, box, holds, relaxedSlope, hold around (Option.some.inj same ▸ by simp)⟩,
    relaxedEven, (points 1 rfl).1 (by decide +kernel), fun holds => ?_⟩
  exact absurd ((points 2 rfl).2 holds) (by decide +kernel)

end LinearBound

end Enclosure
