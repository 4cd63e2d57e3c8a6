import Enclosure.Binary
import Mathlib.Algebra.Order.Field.Power
import Mathlib.Data.Nat.Log
import Mathlib.Tactic.FieldSimp
import Mathlib.Tactic.Linarith
import Mathlib.Tactic.Positivity
import Mathlib.Tactic.Ring

/-!
# Rounding to multiples of a power of two

Rounding divides a magnitude by a power of two, takes the quotient or the next integer, and
multiplies again.
-/

namespace Enclosure.Binary

variable {n d : Nat} {e : Int} {r : Rounding} {q : Rat} {p : Nat}

theorem pow2_eq (e : Int) : pow2 e = (2 : Rat) ^ e := by
  unfold pow2
  split
  · rename_i nonneg
    obtain ⟨k, rfl⟩ := Int.eq_ofNat_of_zero_le nonneg
    simp [Nat.one_shiftLeft]
  · obtain ⟨k, rfl⟩ : ∃ k : Nat, e = -k := ⟨e.natAbs, by omega⟩
    simp [Nat.one_shiftLeft, Rat.mkRat_eq_div]

theorem pow2_pos (e : Int) : 0 < pow2 e := by
  rw [pow2_eq]
  positivity

/-! ### Scaled fractions -/

theorem scale_den_pos (pos : 0 < d) : 0 < (scale n d e).2 := by
  unfold scale
  split
  · simp [pos]
  · exact pos

theorem scale_eq (pos : 0 < d) : ((scale n d e).1 : Rat) / (scale n d e).2 = n / d / pow2 e := by
  rw [pow2_eq]
  unfold scale
  split
  · rename_i nonneg
    obtain ⟨k, rfl⟩ := Int.eq_ofNat_of_zero_le nonneg
    simp only [Int.toNat_natCast, Nat.shiftLeft_eq, zpow_natCast]
    push_cast
    field_simp
  · obtain ⟨k, rfl⟩ : ∃ k : Nat, e = -k := ⟨e.natAbs, by omega⟩
    simp only [neg_neg, Int.toNat_natCast, Nat.shiftLeft_eq, zpow_neg, zpow_natCast]
    push_cast
    field_simp

theorem floorLog2_spec (posN : 0 < n) (posD : 0 < d) :
    (2 : Rat) ^ floorLog2 n d ≤ n / d ∧ (n : Rat) / d < 2 ^ (floorLog2 n d + 1) := by
  have dpos : (0 : Rat) < d := by exact_mod_cast posD
  have lowN : (2 : Rat) ^ n.log2 ≤ n := by exact_mod_cast Nat.log2_self_le posN.ne'
  have highN : (n : Rat) < 2 ^ (n.log2 + 1) := by exact_mod_cast Nat.lt_log2_self
  have lowD : (2 : Rat) ^ d.log2 ≤ d := by exact_mod_cast Nat.log2_self_le posD.ne'
  have highD : (d : Rat) < 2 ^ (d.log2 + 1) := by exact_mod_cast Nat.lt_log2_self
  -- the difference of the logarithms is the exponent or one more
  have below : (2 : Rat) ^ ((n.log2 : Int) - d.log2 - 1) ≤ n / d := by
    rw [le_div_iff₀ dpos]
    calc (2 : Rat) ^ ((n.log2 : Int) - d.log2 - 1) * d
        ≤ 2 ^ ((n.log2 : Int) - d.log2 - 1) * 2 ^ (d.log2 + 1) := by gcongr
      _ = 2 ^ n.log2 := by
        rw [← zpow_natCast, ← zpow_natCast, ← zpow_add₀ (by norm_num)]
        push_cast
        ring
      _ ≤ n := lowN
  have above : (n : Rat) / d < 2 ^ ((n.log2 : Int) - d.log2 + 1) := by
    rw [div_lt_iff₀ dpos]
    calc (n : Rat) < 2 ^ (n.log2 + 1) := highN
      _ = 2 ^ ((n.log2 : Int) - d.log2 + 1) * 2 ^ d.log2 := by
        rw [← zpow_natCast, ← zpow_natCast, ← zpow_add₀ (by norm_num)]
        push_cast
        ring
      _ ≤ 2 ^ ((n.log2 : Int) - d.log2 + 1) * d := by gcongr
  have test : (scale n d (n.log2 - d.log2)).2 ≤ (scale n d (n.log2 - d.log2)).1 ↔
      (2 : Rat) ^ ((n.log2 : Int) - d.log2) ≤ n / d := by
    have pos : (0 : Rat) < (scale n d (n.log2 - d.log2)).2 := by
      exact_mod_cast scale_den_pos posD
    rw [← Nat.cast_le (α := Rat), ← one_le_div pos, scale_eq posD, pow2_eq,
      one_le_div (by positivity)]
  unfold floorLog2
  dsimp only
  split
  · rename_i h
    exact ⟨test.1 h, above⟩
  · rename_i h
    rw [test] at h
    exact ⟨below, by simpa using h⟩

/-! ### Settling a remainder -/

section

variable (pos : 0 < d)
include pos

private theorem exists_part (n : Nat) :
    ∃ t : Rat, (n : Rat) / d = (n / d : Nat) + t ∧ 0 ≤ t ∧ t < 1 ∧ (t = 0 ↔ n % d = 0) ∧
      (1 / 2 ≤ t ↔ d ≤ 2 * (n % d)) ∧ (t ≤ 1 / 2 ↔ 2 * (n % d) ≤ d) := by
  have dpos : (0 : Rat) < d := by exact_mod_cast pos
  have split : (n : Rat) = d * (n / d : Nat) + (n % d : Nat) := by
    exact_mod_cast (Nat.div_add_mod n d).symm
  refine ⟨(n % d : Nat) / d, ?_, by positivity, ?_, by simp [pos.ne'], ?_, ?_⟩
  · field_simp
    linarith
  · rw [div_lt_one dpos]
    exact_mod_cast Nat.mod_lt n pos
  · rw [div_le_div_iff₀ two_pos dpos, one_mul, mul_comm]
    exact_mod_cast Iff.rfl
  · rw [div_le_div_iff₀ dpos two_pos, one_mul, mul_comm]
    exact_mod_cast Iff.rfl

variable (negative : Bool)

theorem le_settle (larger : r.enlarges negative = true) :
    (n : Rat) / d ≤ settle r negative n d := by
  obtain ⟨t, value, -, below, whole, -⟩ := exists_part pos n
  rw [value]
  unfold settle
  dsimp only
  split
  · rename_i none
    simp [whole.2 none]
  · cases r <;> simp_all [Rounding.enlarges, below.le]

theorem settle_le (directed : r ≠ .nearest) (smaller : r.enlarges negative = false) :
    (settle r negative n d : Rat) ≤ n / d := by
  obtain ⟨t, _, _, -⟩ := exists_part pos n
  unfold settle
  dsimp only
  split
  · linarith
  · cases r <;> simp_all

theorem abs_settle_nearest_sub_le : |(settle .nearest negative n d : Rat) - n / d| ≤ 1 / 2 := by
  obtain ⟨t, value, _, _, whole, atLeast, atMost⟩ := exists_part pos n
  -- the remainder is less than the divisor, so rounding to the nearer side moves by half at most
  rw [value, abs_le]
  unfold settle
  dsimp only
  split
  · rename_i none
    simp [whole.2 none]
  · split
    · have := atLeast.2 (by omega)
      push_cast
      constructor <;> linarith
    · have := atMost.2 (by omega)
      constructor <;> linarith

theorem abs_settle_sub_lt : |(settle r negative n d : Rat) - n / d| < 1 := by
  obtain ⟨t, value, nonneg, _, whole, -⟩ := exists_part pos n
  rw [value]
  by_cases exact : n % d = 0
  · simp [settle, exact, whole.2 exact]
  · have rest : 0 < t := nonneg.lt_of_ne' (whole.not.2 exact)
    have next : settle r negative n d = n / d ∨ settle r negative n d = n / d + 1 := by
      unfold settle
      rw [if_neg exact]
      split <;> split <;> simp
    rw [abs_lt]
    rcases next with whole | whole
    · rw [whole]
      constructor <;> linarith
    · rw [whole]
      push_cast
      constructor <;> linarith

theorem settle_nearest_of_tie (tie : |(settle .nearest negative n d : Rat) - n / d| = 1 / 2) :
    settle .nearest negative n d % 2 = 0 := by
  obtain ⟨t, value, _, _, whole, atLeast, atMost⟩ := exists_part pos n
  rw [value] at tie
  unfold settle at tie ⊢
  dsimp only at tie ⊢
  split
  · rename_i none
    simp [none, whole.2 none] at tie
  · rename_i some
    rw [if_neg some] at tie
    split
    · rename_i up
      rw [if_pos up, Nat.cast_add_one, abs_of_pos (by linarith)] at tie
      have := atMost.1 (by linarith)
      omega
    · rename_i down
      rw [if_neg down, abs_of_nonpos (by linarith)] at tie
      have := atLeast.1 (by linarith)
      omega

end

theorem settle_congr {r' : Rounding} {negative negative' : Bool} (directed : r ≠ .nearest)
    (directed' : r' ≠ .nearest) (same : r.enlarges negative = r'.enlarges negative') (n d : Nat) :
    settle r negative n d = settle r' negative' n d := by
  unfold settle
  cases r <;> cases r' <;> simp_all

theorem settle_flip (r : Rounding) (negative : Bool) (n d : Nat) :
    settle r.flip (!negative) n d = settle r negative n d := by
  cases r with
  | nearest => rfl
  | _ => exact settle_congr (by simp [Rounding.flip]) (by simp) (Rounding.enlarges_flip _ _) n d

/-! ### Rounding a rational -/

theorem natAbs_div_den (q : Rat) : (q.num.natAbs : Rat) / q.den = |q| := by
  rw [Rat.abs_def, Rat.divInt_eq_div]
  simp

theorem roundAt_cases (e : Int) (r : Rounding) (q : Rat) :
    ∃ n d : Nat, 0 < d ∧
      (q < 0 ∧ q = -(n / d * 2 ^ e) ∧ roundAt e r q = -(settle r true n d * 2 ^ e) ∨
        0 ≤ q ∧ q = n / d * 2 ^ e ∧ roundAt e r q = settle r false n d * 2 ^ e) := by
  refine ⟨(scale q.num.natAbs q.den e).1, (scale q.num.natAbs q.den e).2,
    scale_den_pos q.den_pos, ?_⟩
  rw [scale_eq q.den_pos, natAbs_div_den, pow2_eq, div_mul_cancel₀ _ (by positivity)]
  rcases lt_or_ge q 0 with negative | nonnegative
  · exact .inl ⟨negative, by simp [abs_of_neg negative], by simp [roundAt, negative, pow2_eq]⟩
  · exact .inr ⟨nonnegative, (abs_of_nonneg nonnegative).symm,
      by simp [roundAt, nonnegative.not_gt, pow2_eq]⟩

theorem le_roundAt_up (e : Int) (q : Rat) : q ≤ roundAt e .up q := by
  have step : (0 : Rat) ≤ 2 ^ e := by positivity
  obtain ⟨n, d, pos, ⟨-, value, rounded⟩ | ⟨-, value, rounded⟩⟩ := roundAt_cases e .up q
  · rw [rounded, value, neg_le_neg_iff]
    exact mul_le_mul_of_nonneg_right (settle_le pos true (by simp) rfl) step
  · rw [rounded, value]
    exact mul_le_mul_of_nonneg_right (le_settle pos false rfl) step

theorem roundAt_down_le (e : Int) (q : Rat) : roundAt e .down q ≤ q := by
  have step : (0 : Rat) ≤ 2 ^ e := by positivity
  obtain ⟨n, d, pos, ⟨-, value, rounded⟩ | ⟨-, value, rounded⟩⟩ := roundAt_cases e .down q
  · rw [rounded, value, neg_le_neg_iff]
    exact mul_le_mul_of_nonneg_right (le_settle pos true rfl) step
  · rw [rounded, value]
    exact mul_le_mul_of_nonneg_right (settle_le pos false (by simp) rfl) step

private theorem roundAt_steps (e : Int) (r : Rounding) (q : Rat) :
    ∃ (negative : Bool) (sign : Int) (n d : Nat), 0 < d ∧
      roundAt e r q = sign * settle r negative n d * 2 ^ e ∧
      |roundAt e r q - q| = |(settle r negative n d : Rat) - n / d| * 2 ^ e := by
  have step : (0 : Rat) < 2 ^ e := by positivity
  obtain ⟨n, d, pos, ⟨-, value, rounded⟩ | ⟨-, value, rounded⟩⟩ := roundAt_cases e r q
  · have distance : roundAt e r q - q = -((settle r true n d - n / d) * 2 ^ e) := by
      rw [rounded, value]
      ring
    exact ⟨true, -1, n, d, pos, by rw [rounded]; push_cast; ring,
      by rw [distance, abs_neg, abs_mul, abs_of_pos step]⟩
  · have distance : roundAt e r q - q = (settle r false n d - n / d) * 2 ^ e := by
      rw [rounded, value]
      ring
    exact ⟨false, 1, n, d, pos, by rw [rounded]; push_cast; ring,
      by rw [distance, abs_mul, abs_of_pos step]⟩

theorem abs_roundAt_nearest_sub_le (e : Int) (q : Rat) :
    |roundAt e .nearest q - q| ≤ 2 ^ e / 2 := by
  have step : (0 : Rat) < 2 ^ e := by positivity
  obtain ⟨negative, -, n, d, pos, -, _⟩ := roundAt_steps e .nearest q
  linarith [mul_le_mul_of_nonneg_right (abs_settle_nearest_sub_le (n := n) pos negative) step.le]

theorem roundAt_nearest_of_tie (tie : |roundAt e .nearest q - q| = 2 ^ e / 2) :
    ∃ k : Int, roundAt e .nearest q = 2 * k * 2 ^ e := by
  have step : (2 : Rat) ^ e ≠ 0 := by positivity
  obtain ⟨negative, sign, n, d, pos, rounded, error⟩ := roundAt_steps e .nearest q
  have half : |(settle .nearest negative n d : Rat) - n / d| = 1 / 2 :=
    mul_right_cancel₀ step (error.symm.trans (tie.trans (by ring)))
  obtain ⟨k, even⟩ := Nat.dvd_of_mod_eq_zero (settle_nearest_of_tie pos negative half)
  exact ⟨sign * k, by rw [rounded, even]; push_cast; ring⟩

theorem abs_roundAt_sub_lt (e : Int) (r : Rounding) (q : Rat) : |roundAt e r q - q| < 2 ^ e := by
  have step : (0 : Rat) < 2 ^ e := by positivity
  obtain ⟨negative, -, n, d, pos, -, error⟩ := roundAt_steps e r q
  rw [error]
  exact mul_lt_of_lt_one_left step (abs_settle_sub_lt pos negative)

theorem exists_roundAt_eq (e : Int) (r : Rounding) (q : Rat) :
    ∃ k : Int, roundAt e r q = k * 2 ^ e := by
  obtain ⟨negative, sign, n, d, -, rounded, -⟩ := roundAt_steps e r q
  exact ⟨sign * settle r negative n d, by rw [rounded]; push_cast; rfl⟩

theorem roundAt_flip_neg (e : Int) (r : Rounding) (nonzero : q ≠ 0) :
    roundAt e r.flip (-q) = -roundAt e r q := by
  have sign : decide (-q < 0) = !decide (q < 0) := by
    rw [← decide_not, decide_eq_decide, neg_lt_zero, not_lt]
    exact ⟨le_of_lt, fun nonneg => lt_of_le_of_ne nonneg nonzero.symm⟩
  unfold roundAt
  simp only [sign, settle_flip]
  cases decide (q < 0) <;> simp

theorem le_round_up (p : Nat) (q : Rat) : q ≤ round p .up q := by
  unfold round
  split
  · rename_i zero
    exact zero.le
  · exact le_roundAt_up _ q

theorem round_down_le (p : Nat) (q : Rat) : round p .down q ≤ q := by
  unfold round
  split
  · rename_i zero
    exact zero.ge
  · exact roundAt_down_le _ q

theorem round_nonneg (p : Nat) (r : Rounding) (nonneg : 0 ≤ q) : 0 ≤ round p r q := by
  unfold round
  split
  · exact le_rfl
  · obtain ⟨n, d, -, ⟨negative, -⟩ | ⟨-, -, rounded⟩⟩ := roundAt_cases (lastPlace p q) r q
    · exact absurd nonneg (not_le.2 negative)
    · rw [rounded]
      positivity

theorem floorLog2_abs (nonzero : q ≠ 0) :
    (2 : Rat) ^ floorLog2 q.num.natAbs q.den ≤ |q| ∧
      |q| < 2 ^ (floorLog2 q.num.natAbs q.den + 1) := by
  have positive : 0 < q.num.natAbs := by simpa using nonzero
  rw [← natAbs_div_den]
  exact floorLog2_spec positive q.den_pos

/-! ### Square roots -/

theorem sqrt_mul_sqrt_le : (n / d).sqrt * (n / d).sqrt * d ≤ n :=
  (Nat.mul_le_mul_right d (Nat.sqrt_le (n / d))).trans (Nat.div_mul_le_self n d)

theorem settleSqrt_down (n d : Nat) : settleSqrt .down n d = (n / d).sqrt := by
  simp [settleSqrt, Rounding.enlarges]

theorem le_settleSqrt_up_sq (pos : 0 < d) : n ≤ settleSqrt .up n d * settleSqrt .up n d * d := by
  unfold settleSqrt
  dsimp only
  split
  · rename_i exact
    exact exact.ge
  · exact ((Nat.div_lt_iff_lt_mul pos).1 (Nat.lt_succ_sqrt (n / d))).le

theorem settleSqrt_le (pos : 0 < d) (below : (n : Rat) / d < 2 ^ p * 2 ^ p) :
    settleSqrt r n d ≤ 2 ^ p := by
  have quotient : n / d < 2 ^ p * 2 ^ p := by
    rw [Nat.div_lt_iff_lt_mul pos]
    rw [div_lt_iff₀ (by exact_mod_cast pos)] at below
    exact_mod_cast below
  have whole : (n / d).sqrt < 2 ^ p := Nat.sqrt_lt.2 quotient
  unfold settleSqrt
  dsimp only
  split
  · exact whole.le
  split
  · split <;> omega
  · split <;> omega

theorem sqrt_cases (nonneg : 0 ≤ q) (nonzero : q ≠ 0) :
    ∃ (n d : Nat) (e : Int), 0 < d ∧ q = n / d * (2 ^ e * 2 ^ e) ∧
      (n : Rat) / d < 2 ^ p * 2 ^ p ∧ 2 ^ (e + p - 1) * 2 ^ (e + p - 1) ≤ q ∧
      ∀ r, sqrt p r q = settleSqrt r n d * 2 ^ e := by
  let half := (floorLog2 q.num.natAbs q.den).fdiv 2
  let e := half - (p - 1)
  have square : (2 : Rat) ^ e * 2 ^ e = 2 ^ (2 * e) := by
    rw [← zpow_add₀ two_ne_zero, two_mul]
  have value : q = ((scale q.num.natAbs q.den (2 * e)).1 : Rat) /
      (scale q.num.natAbs q.den (2 * e)).2 * (2 ^ e * 2 ^ e) := by
    rw [scale_eq q.den_pos, natAbs_div_den, pow2_eq, square, div_mul_cancel₀ _ (by positivity),
      abs_of_nonneg nonneg]
  have magnitude := floorLog2_abs nonzero
  rw [abs_of_nonneg nonneg] at magnitude
  -- the exponent is twice its half, or one more
  have halved : half = floorLog2 q.num.natAbs q.den / 2 := Int.fdiv_eq_ediv_of_nonneg _ (by decide)
  refine ⟨_, _, e, scale_den_pos q.den_pos, value, ?_, ?_,
    fun r => by rw [sqrt, if_neg nonzero, ← pow2_eq]⟩
  · have above : q < 2 ^ (2 * half + 2) :=
      magnitude.2.trans_le (zpow_le_zpow_right₀ one_le_two (by omega))
    have steps : (2 : Rat) ^ (2 * half + 2) = 2 ^ p * 2 ^ p * (2 ^ e * 2 ^ e) := by
      rw [square, ← zpow_natCast, ← zpow_add₀ two_ne_zero, ← zpow_add₀ two_ne_zero]
      congr 1
      omega
    rw [steps, value] at above
    exact lt_of_mul_lt_mul_right above (by positivity)
  · refine le_trans ?_ magnitude.1
    rw [← zpow_add₀ two_ne_zero]
    exact zpow_le_zpow_right₀ one_le_two (by omega)

theorem exists_sqrt_eq (nonneg : 0 ≤ q) (r : Rounding) :
    ∃ (m : Nat) (e : Int), m ≤ 2 ^ p ∧ sqrt p r q = m * 2 ^ e := by
  by_cases zero : q = 0
  · exact ⟨0, 0, Nat.zero_le _, by simp [sqrt, zero]⟩
  · obtain ⟨n, d, e, pos, -, below, -, root⟩ := sqrt_cases nonneg zero
    exact ⟨_, e, settleSqrt_le pos below, root r⟩

theorem fraction_le_iff {m : Nat} (pos : 0 < d) :
    (m / d * (2 ^ e * 2 ^ e) : Rat) ≤ n / d * (2 ^ e * 2 ^ e) ↔ m ≤ n := by
  have step : (0 : Rat) < 2 ^ e * 2 ^ e := by positivity
  rw [mul_le_mul_iff_left₀ step, div_le_div_iff_of_pos_right (by exact_mod_cast pos), Nat.cast_le]

theorem steps_sq {k : Nat} (pos : 0 < d) :
    (k * 2 ^ e * (k * 2 ^ e) : Rat) = (k * k * d : Nat) / d * (2 ^ e * 2 ^ e) := by
  push_cast
  field_simp

theorem sqrt_down_sq_le (p : Nat) (nonneg : 0 ≤ q) : sqrt p .down q * sqrt p .down q ≤ q := by
  by_cases zero : q = 0
  · simp [sqrt, zero]
  · obtain ⟨n, d, e, pos, value, -, -, root⟩ := sqrt_cases nonneg zero
    rw [root, steps_sq pos, value, fraction_le_iff pos, settleSqrt_down]
    exact sqrt_mul_sqrt_le

theorem le_sqrt_up_sq (p : Nat) (nonneg : 0 ≤ q) : q ≤ sqrt p .up q * sqrt p .up q := by
  by_cases zero : q = 0
  · simp [sqrt, zero]
  · obtain ⟨n, d, e, pos, value, -, -, root⟩ := sqrt_cases nonneg zero
    rw [root, steps_sq pos, value, fraction_le_iff pos]
    exact le_settleSqrt_up_sq pos

theorem sqrt_nonneg (p : Nat) (r : Rounding) : 0 ≤ sqrt p r q := by
  unfold sqrt
  split
  · exact le_rfl
  · have := pow2_pos ((floorLog2 q.num.natAbs q.den).fdiv 2 - (p - 1))
    positivity

end Enclosure.Binary
