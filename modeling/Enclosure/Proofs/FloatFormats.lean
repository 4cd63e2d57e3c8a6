import Enclosure.Proofs.CorrectRounding

/-!
# Rounding to floating point formats

A format rounds a number to a multiple of its last place.
-/

namespace Enclosure

open Binary ExtRat Rounding FloatFormat
open Double (Multiple)

/-- The integer to which a direction rounds; the nearest of two equally near ones is even. -/
def Rounding.toInt : Rounding → Rat → Int
  | .down, t => ⌊t⌋
  | .up, t => ⌈t⌉
  | .zero, t => if 0 ≤ t then ⌊t⌋ else ⌈t⌉
  | .away, t => if 0 ≤ t then ⌈t⌉ else ⌊t⌋
  | .nearest, t =>
    if t - ⌊t⌋ < 1 / 2 ∨ t - ⌊t⌋ = 1 / 2 ∧ Even ⌊t⌋ then ⌊t⌋ else ⌊t⌋ + 1

/-- The exponent of the last place of a number, or of the least normal number if that is larger. -/
def FloatFormat.place (f : FloatFormat) (q : Rat) : Int :=
  max (Int.log 2 |q|) (1 - f.maxExponent) - f.precision + 1

def FloatFormat.toGrid (f : FloatFormat) (r : Rounding) (q : Rat) : Rat :=
  r.toInt (q / 2 ^ f.place q) * 2 ^ f.place q

def FloatFormat.rounded (f : FloatFormat) (r : Rounding) (q : Rat) : ExtRat :=
  if f.maxFinite < f.toGrid r q then .posInf
  else if f.toGrid r q < -f.maxFinite then .negInf
  else .fin (f.toGrid r q)

def RoundingPolicy.allows : RoundingPolicy → Rounding → Bool
  | .nearest, r => r = .nearest
  | .zero, r => r = .zero
  | .up, r => r = .up
  | .down, r => r = .down
  | .varying, r | .unknown, r => r ≠ .away

/-! ### Steps of one size -/

theorem Rounding.eq_toInt_nearest {t : Rat} {k : Int} (near : |k - t| ≤ 1 / 2)
    (even : |k - t| = 1 / 2 → Even k) : k = nearest.toInt t := by
  have low := Int.floor_le t
  have high := Int.lt_floor_add_one t
  obtain ⟨_, below⟩ := abs_le.1 near
  have range : k = ⌊t⌋ ∨ k = ⌊t⌋ + 1 := by
    have less : k < ⌊t⌋ + 2 := by exact_mod_cast (by linarith : (k : Rat) < ⌊t⌋ + 2)
    have more : ⌊t⌋ < k + 1 := by exact_mod_cast (by linarith : (⌊t⌋ : Rat) < k + 1)
    omega
  rw [toInt]
  rcases range with rfl | rfl
  · rw [if_pos]
    rw [abs_sub_comm, abs_of_nonneg (sub_nonneg.2 low)] at near even
    exact near.lt_or_eq.imp_right fun tie => ⟨tie, even tie⟩
  · push_cast at below even
    rw [if_neg]
    rintro (_ | ⟨_, even'⟩)
    · linarith
    · refine Int.even_add_one.1 (even ?_) even'
      rw [show (⌊t⌋) + 1 - t = 1 / 2 by linarith]
      norm_num

namespace Binary

variable {p : Nat} {q : Rat} {e : Int} {r : Rounding}

theorem roundAt_down_eq (e : Int) (q : Rat) : roundAt e .down q = ⌊q / 2 ^ e⌋ * 2 ^ e := by
  have step : (0 : Rat) < 2 ^ e := by positivity
  apply le_antisymm
  · obtain ⟨k, rounded⟩ := exists_roundAt_eq e .down q
    rw [rounded, mul_le_mul_iff_left₀ step, Int.cast_le, Int.le_floor, le_div_iff₀ step, ← rounded]
    exact roundAt_down_le e q
  · exact le_roundAt_down_of_multiple ⟨_, rfl⟩ ((le_div_iff₀ step).1 (Int.floor_le _))

theorem roundAt_up_eq (e : Int) (q : Rat) : roundAt e .up q = ⌈q / 2 ^ e⌉ * 2 ^ e := by
  by_cases zero : q = 0
  · rw [zero, roundAt_eq_self ⟨0, by simp⟩]
    simp
  · have opposite := roundAt_flip_neg e .up zero
    rw [Rounding.flip, roundAt_down_eq, neg_div, Int.floor_neg] at opposite
    push_cast at opposite
    linarith

theorem roundAt_nearest_eq (e : Int) (q : Rat) :
    roundAt e .nearest q = nearest.toInt (q / 2 ^ e) * 2 ^ e := by
  have step : (0 : Rat) < 2 ^ e := by positivity
  obtain ⟨k, rounded⟩ := exists_roundAt_eq e .nearest q
  have error : |roundAt e .nearest q - q| = |k - q / 2 ^ e| * 2 ^ e := by
    rw [rounded, ← abs_of_pos step, ← abs_mul, abs_of_pos step, sub_mul, div_mul_cancel₀ _ step.ne']
  have near : |k - q / 2 ^ e| ≤ 1 / 2 := by
    have half := error.symm.trans_le (abs_roundAt_nearest_sub_le e q)
    exact le_of_mul_le_mul_right (half.trans_eq (by ring)) step
  rw [rounded, eq_toInt_nearest near fun tie => ?_]
  obtain ⟨l, even⟩ := roundAt_nearest_of_tie (by rw [error, tie]; ring)
  rw [rounded] at even
  exact even_iff_two_dvd.2 ⟨l, by exact_mod_cast mul_right_cancel₀ step.ne' even⟩

theorem roundAt_eq (e : Int) (r : Rounding) (q : Rat) :
    roundAt e r q = r.toInt (q / 2 ^ e) * 2 ^ e := by
  have step : (0 : Rat) < 2 ^ e := by positivity
  have toward {s : Rounding} (directed : r ≠ .nearest) (directed' : s ≠ .nearest) :=
    roundAt_congr (q := q) directed directed'
  cases r with
  | down => exact roundAt_down_eq e q
  | up => exact roundAt_up_eq e q
  | nearest => exact roundAt_nearest_eq e q
  | zero =>
    rw [toInt]
    rcases lt_or_ge q 0 with negative | nonneg
    · rw [if_neg (not_le.2 (div_neg_of_neg_of_pos negative step)), ← roundAt_up_eq]
      exact toward (by simp) (by simp) (by simp [enlarges, negative]) e
    · rw [if_pos (div_nonneg nonneg step.le), ← roundAt_down_eq]
      exact toward (by simp) (by simp) (by simp [enlarges, nonneg]) e
  | away =>
    rw [toInt]
    rcases lt_or_ge q 0 with negative | nonneg
    · rw [if_neg (not_le.2 (div_neg_of_neg_of_pos negative step)), ← roundAt_down_eq]
      exact toward (by simp) (by simp) (by simp [enlarges, negative]) e
    · rw [if_pos (div_nonneg nonneg step.le), ← roundAt_up_eq]
      exact toward (by simp) (by simp) (by simp [enlarges, nonneg]) e

theorem round_between (pos : 0 < p) (r : Rounding) (q : Rat) :
    round p .down q ≤ round p r q ∧ round p r q ≤ round p .up q := by
  have below := round_mono pos r (round_down_le p q)
  have above := round_mono pos r (le_round_up p q)
  rw [(isFloat_round p _ q).round_eq pos] at below above
  exact ⟨below, above⟩

end Binary

/-! ### Members -/

theorem Kind.round_binary_mono {p : Nat} {x y : ExtRat} {r : Rounding} (pos : 0 < p) (le : x ≤ y) :
    Kind.round (.binary p) r x ≤ Kind.round (.binary p) r y := by
  cases x <;> cases y <;> simp_all [Kind.round, round_mono]

namespace Interval

variable {f : FloatFormat} {policy : RoundingPolicy} {a : Interval} {q : Rat} {r : Rounding}

theorem exists_round_eq (pos : 0 < f.precision) (has : a.Has q)
    (regular : 2 ^ (1 - f.maxExponent : Int) ≤ |q| ∨ a.Has (f.toGrid r q)) :
    ∃ m, a.Has m ∧ Binary.round f.precision r m = f.toGrid r q := by
  by_cases normal : 2 ^ (1 - f.maxExponent : Int) ≤ |q|
  · have positive : 0 < |q| := lt_of_lt_of_le (by positivity) normal
    have place : f.place q = lastPlace f.precision q := by
      rw [lastPlace_eq (abs_pos.1 positive), place, max_eq_left]
      exact (Int.zpow_le_iff_le_log one_lt_two positive).1 (by exact_mod_cast normal)
    refine ⟨q, has, ?_⟩
    rw [toGrid, ← roundAt_eq, place, Binary.round, if_neg (abs_pos.1 positive)]
  · refine ⟨_, regular.resolve_left normal, IsFloat.round_eq ?_ pos⟩
    rw [toGrid, ← roundAt_eq]
    apply isFloat_roundAt
    -- the steps are those of the least normal number
    refine (not_le.1 normal).trans_le ?_
    rw [place, ← zpow_natCast, ← zpow_add₀ two_ne_zero]
    exact zpow_le_zpow_right₀ one_le_two (by omega)

theorem round_extremes (pos : 0 < f.precision) (allowed : policy.allows r = true) (q : Rat) :
    Binary.round f.precision policy.extremes.1 q ≤ Binary.round f.precision r q ∧
      Binary.round f.precision r q ≤ Binary.round f.precision policy.extremes.2 q := by
  cases policy with
  | varying => exact round_between pos r q
  | unknown => exact round_between pos r q
  | _ =>
    obtain rfl := of_decide_eq_true allowed
    exact ⟨le_rfl, le_rfl⟩

variable {s : Rounding} {x : Number}

theorem floatBelow_le (le : Kind.round (.binary f.precision) s x.value ≤ .fin (f.toGrid r q)) :
    (floatBelow f s .rational x).value ≤ f.rounded r q := by
  change (if _ then _ else if _ then _ else _) ≤ _
  unfold rounded
  split
  · exact negInf_le _
  · rename_i notLow
    split
    · rename_i high
      rw [if_pos (fin_lt_fin.1 (high.trans_le le))]
      exact le_posInf _
    · rw [if_neg fun low => notLow (le.trans_lt (fin_lt_fin.2 low))]
      split
      · exact le_posInf _
      · exact le

theorem le_floatAbove (le : .fin (f.toGrid r q) ≤ Kind.round (.binary f.precision) s x.value) :
    f.rounded r q ≤ (floatAbove f s .rational x).value := by
  change _ ≤ (if _ then _ else if _ then _ else _)
  unfold rounded
  split
  · rename_i high
    rw [if_pos ((fin_lt_fin.2 high).trans_le le)]
  · split
    · exact negInf_le _
    · rename_i notLow
      rw [if_neg fun low => notLow (fin_lt_fin.1 (le.trans_lt low))]
      split
      · exact le_posInf _
      · exact le

/-- Every member, rounded to the format in a direction that the policy allows, is in the rounded
interval if it is at least the least normal number, or else if the interval has its rounding. -/
theorem rounded_members_kept (format : ResultFormat) (float : format.float? = some f)
    (rational : a.IsRational) (allowed : policy.allows r = true) (has : a.Has q)
    (regular : 2 ^ (1 - f.maxExponent : Int) ≤ |q| ∨ a.Has (f.toGrid r q)) :
    (a.roundFloat f policy).Spans (f.rounded r q) := by
  have pos : 0 < f.precision := by
    cases format <;> simp [ResultFormat.float?] at float <;> simp [← float]
  obtain ⟨m, hasM, grid⟩ := exists_round_eq pos has regular
  obtain ⟨least, greatest⟩ := round_extremes pos allowed m
  rw [grid] at least greatest
  change (a.mapBounds (floatBelow f policy.extremes.1 a.kind)
    (floatAbove f policy.extremes.2 a.kind)).Spans _
  rw [mapBounds, has.not_isEmpty, if_neg Bool.false_ne_true, kind, rational.lo]
  exact ⟨floatBelow_le ((Kind.round_binary_mono pos hasM.1).trans least),
    le_floatAbove (le_trans greatest (Kind.round_binary_mono pos hasM.2))⟩

/-- Between a third and ten to the thirty-ninth, a third is rounded to the nearest number of single
precision, and the upper end overflows. -/
theorem third_and_overflow_kept :
    let a : Interval := .ofExt (.fin (1 / 3)) (.fin (10 ^ 39))
    ResultFormat.single.float? = some ⟨24, 127⟩ ∧ a.IsRational ∧
      (a.roundFloat ⟨24, 127⟩ .varying).Spans (.fin (11184811 / 33554432)) ∧
      (a.roundFloat ⟨24, 127⟩ .varying).Spans .posInf := by
  intro a
  have rational : a.IsRational := isRational_ofExt _ _
  have kept (q : Rat) (large : 1 / 3 ≤ q) (small : q ≤ 10 ^ 39) :
      (a.roundFloat ⟨24, 127⟩ .varying).Spans (FloatFormat.rounded ⟨24, 127⟩ .nearest q) := by
    refine rounded_members_kept .single rfl rational rfl (has_ofExt_fin.2 ⟨large, small⟩) (.inl ?_)
    exact le_trans (le_trans (by norm_num) large) (le_abs_self q)
  have third : FloatFormat.rounded ⟨24, 127⟩ .nearest (1 / 3) = .fin (11184811 / 33554432) := by
    decide +kernel
  have overflow : FloatFormat.rounded ⟨24, 127⟩ .nearest (10 ^ 39) = .posInf := by decide +kernel
  refine ⟨rfl, rational, third ▸ kept _ le_rfl (by norm_num), ?_⟩
  exact overflow ▸ kept _ (by norm_num) le_rfl

/-- Half of the least positive number of single precision is rounded to zero, but it stays as it is
in an interval. -/
theorem half_of_least_number_lost :
    let a : Interval := .ofExt (.fin (1 / 2 ^ 150)) (.fin (1 / 2 ^ 150))
    ResultFormat.single.float? = some ⟨24, 127⟩ ∧ a.IsRational ∧ a.Has (1 / 2 ^ 150) ∧
      FloatFormat.rounded ⟨24, 127⟩ .nearest (1 / 2 ^ 150) = .fin 0 ∧
      ¬ (a.roundFloat ⟨24, 127⟩ .nearest).Spans (.fin 0) := by
  intro a
  have unchanged : a.roundFloat ⟨24, 127⟩ .nearest = a := by decide +kernel
  refine ⟨rfl, isRational_ofExt _ _, has_ofExt_fin.2 ⟨le_rfl, le_rfl⟩, by decide +kernel, ?_⟩
  rw [unchanged]
  exact fun zero => (has_ofExt_fin.1 zero).1.not_gt (by norm_num)

end Interval

end Enclosure
