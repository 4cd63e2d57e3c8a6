import Enclosure.Proofs.Quotients
import Mathlib.Algebra.Order.Group.Pointwise.Interval
import Mathlib.Data.Int.Log
import Mathlib.Data.Nat.Factorization.Basic

/-!
# Correct rounding

Rounding to `p` bits chooses between two multiples of the last place of the exact value.
-/

namespace Enclosure.Binary

open Double (Multiple abs_roundAt_nearest_sub_le_of_multiple multiple_pow)

variable {p : Nat} {q q' y z : Rat} {e : Int} {r : Rounding}

/-! ### The floats around a rational -/

def IsBelow (p : Nat) (q y : Rat) : Prop := IsGreatest {z | IsFloat p z ∧ z ≤ q} y

def IsAbove (p : Nat) (q y : Rat) : Prop := IsLeast {z | IsFloat p z ∧ q ≤ z} y

def IsNeighbour (p : Nat) (q y : Rat) : Prop := IsBelow p q y ∨ IsAbove p q y

/-- A float of `p` bits at the least distance from `q`. -/
structure IsNearest (p : Nat) (q y : Rat) : Prop where
  float : IsFloat p y
  best : ∀ z, IsFloat p z → |y - q| ≤ |z - q|
  even : ∀ z, IsFloat p z → z ≠ y → |z - q| = |y - q| →
    ∃ k : Int, y = 2 * k * 2 ^ (Int.log 2 |q| - p + 1)

/-- The float of precision `p` that `r` selects for `q`. -/
def IsRounding (p : Nat) (r : Rounding) (q y : Rat) : Prop :=
  match r with
  | .down => IsBelow p q y
  | .up => IsAbove p q y
  | .zero => IsNeighbour p q y ∧ ∀ z, IsNeighbour p q z → |y| ≤ |z|
  | .away => IsNeighbour p q y ∧ ∀ z, IsNeighbour p q z → |z| ≤ |y|
  | .nearest => IsNearest p q y

theorem IsBelow.neg (h : IsBelow p q y) : IsAbove p (-q) (-y) := by
  refine ⟨⟨h.1.1.neg, neg_le_neg h.1.2⟩, fun z above => ?_⟩
  exact neg_le.1 (h.2 ⟨above.1.neg, neg_le.1 above.2⟩)

theorem IsBelow.nonneg (h : IsBelow p q y) (nonneg : 0 ≤ q) : 0 ≤ y := h.2 ⟨isFloat_zero p, nonneg⟩

theorem IsAbove.nonpos (h : IsAbove p q y) (nonpos : q ≤ 0) : y ≤ 0 := h.2 ⟨isFloat_zero p, nonpos⟩

/-! ### The last place -/

theorem floorLog2_eq_log (nonzero : q ≠ 0) : floorLog2 q.num.natAbs q.den = Int.log 2 |q| := by
  have positive : 0 < |q| := abs_pos.2 nonzero
  obtain ⟨low, high⟩ := floorLog2_abs nonzero
  apply le_antisymm
  · exact (Int.zpow_le_iff_le_log one_lt_two positive).1 (by exact_mod_cast low)
  · exact Int.lt_add_one_iff.1
      ((Int.lt_zpow_iff_log_lt one_lt_two positive).1 (by exact_mod_cast high))

theorem lastPlace_eq (nonzero : q ≠ 0) : lastPlace p q = Int.log 2 |q| - p + 1 := by
  rw [lastPlace, floorLog2_eq_log nonzero]
  ring

theorem IsFloat.multiple_or_abs_le (h : IsFloat p z) (e : Int) :
    Multiple e z ∨ |z| ≤ 2 ^ (e + p - 1) := by
  obtain ⟨d, multiple, small⟩ := h
  rcases le_or_gt e d with coarse | _
  · exact .inl (multiple.finer coarse)
  · refine .inr (small.trans ?_)
    rw [← zpow_natCast, ← zpow_add₀ two_ne_zero]
    exact zpow_le_zpow_right₀ one_le_two (by omega)

theorem IsFloat.exists_multiple (h : IsFloat p z) (pos : 0 < p) (nonzero : q ≠ 0) :
    ∃ g, Multiple (lastPlace p q) g ∧ g ∈ Set.uIcc q z := by
  rcases h.multiple_or_abs_le (lastPlace p q) with multiple | small
  · exact ⟨z, multiple, Set.right_mem_uIcc⟩
  · -- a smaller float has the power of two next to the number in between
    have low := (floorLog2_abs nonzero).1
    have place : lastPlace p q + p - 1 = floorLog2 q.num.natAbs q.den := by
      unfold lastPlace
      ring
    have power : Multiple (lastPlace p q) (2 ^ floorLog2 q.num.natAbs q.den) :=
      multiple_pow (by unfold lastPlace; omega)
    rw [place] at small
    rcases lt_or_ge q 0 with negative | nonnegative
    · rw [abs_of_neg negative] at low
      exact ⟨_, power.neg, Set.mem_uIcc.2 (.inl ⟨le_neg.1 low, (abs_le.1 small).1⟩)⟩
    · rw [abs_of_nonneg nonnegative] at low
      exact ⟨_, power, Set.mem_uIcc.2 (.inr ⟨(abs_le.1 small).2, low⟩)⟩

/-! ### Directed rounding -/

theorem round_flip_neg (p : Nat) (r : Rounding) (q : Rat) : round p r.flip (-q) = -round p r q := by
  unfold round
  by_cases zero : q = 0
  · simp [zero]
  · have place : lastPlace p (-q) = lastPlace p q := by
      simp only [lastPlace, Rat.neg_num, Rat.neg_den, Int.natAbs_neg]
    rw [if_neg (neg_ne_zero.2 zero), if_neg zero, place, roundAt_flip_neg _ r zero]

theorem le_roundAt_down_of_multiple (h : Multiple e z) (le : z ≤ q) : z ≤ roundAt e .down q := by
  by_contra beyond
  have step := (h.sub (exists_roundAt_eq e .down q)).le_of_pos (sub_pos.2 (not_le.1 beyond))
  have near := (abs_lt.1 (abs_roundAt_sub_lt e .down q)).1
  linarith

theorem isBelow_round_down (pos : 0 < p) (q : Rat) : IsBelow p q (round p .down q) := by
  refine ⟨⟨isFloat_round p .down q, round_down_le p q⟩, fun z below => ?_⟩
  obtain ⟨float, le⟩ := below
  by_cases zero : q = 0
  · simpa [round, zero] using le
  · obtain ⟨g, multiple, between⟩ := float.exists_multiple pos zero
    rw [Set.uIcc_of_ge le] at between
    rw [round, if_neg zero]
    exact between.1.trans (le_roundAt_down_of_multiple multiple between.2)

theorem isAbove_round_up (pos : 0 < p) (q : Rat) : IsAbove p q (round p .up q) := by
  have opposite := (isBelow_round_down pos (-q)).neg
  rwa [← round_flip_neg, neg_neg] at opposite

theorem roundAt_congr {s : Rounding} (directed : r ≠ .nearest) (directed' : s ≠ .nearest)
    (same : r.enlarges (q < 0) = s.enlarges (q < 0)) (e : Int) : roundAt e r q = roundAt e s q := by
  simp only [roundAt, settle_congr directed directed' same]

theorem round_congr {s : Rounding} (directed : r ≠ .nearest) (directed' : s ≠ .nearest)
    (same : r.enlarges (q < 0) = s.enlarges (q < 0)) : round p r q = round p s q := by
  simp only [round, roundAt_congr directed directed' same]

theorem round_zero_of_nonneg (nonneg : 0 ≤ q) : round p .zero q = round p .down q :=
  round_congr (by simp) (by simp) (by simp [Rounding.enlarges, nonneg])

theorem round_zero_of_neg (negative : q < 0) : round p .zero q = round p .up q :=
  round_congr (by simp) (by simp) (by simp [Rounding.enlarges, negative])

theorem round_away_of_nonneg (nonneg : 0 ≤ q) : round p .away q = round p .up q :=
  round_congr (by simp) (by simp) (by simp [Rounding.enlarges, nonneg])

theorem round_away_of_neg (negative : q < 0) : round p .away q = round p .down q :=
  round_congr (by simp) (by simp) (by simp [Rounding.enlarges, negative])

/-! ### Rounding to nearest -/

theorem abs_round_nearest_sub_le (pos : 0 < p) (hz : IsFloat p z) (q : Rat) :
    |round p .nearest q - q| ≤ |z - q| := by
  by_cases zero : q = 0
  · simp [round, zero]
  · obtain ⟨g, multiple, between⟩ := hz.exists_multiple pos zero
    rw [round, if_neg zero]
    exact (abs_roundAt_nearest_sub_le_of_multiple multiple q).trans
      (Set.abs_sub_left_of_mem_uIcc between)

theorem tie_of_abs_sub_eq (pos : 0 < p) (nonzero : q ≠ 0) (hz : IsFloat p z)
    (other : z ≠ round p .nearest q) (same : |z - q| = |round p .nearest q - q|) :
    |roundAt (lastPlace p q) .nearest q - q| = 2 ^ lastPlace p q / 2 := by
  obtain ⟨g, multiple, between⟩ := hz.exists_multiple pos nonzero
  rw [round, if_neg nonzero] at other same
  have best := abs_roundAt_nearest_sub_le_of_multiple multiple q
  have near := abs_roundAt_nearest_sub_le (lastPlace p q) q
  set y := roundAt (lastPlace p q) .nearest q with hy
  -- the float is at the other end of the interval around `q`, and `g` cannot be nearer
  have mirrored : z - q = -(y - q) := (abs_eq_abs.1 same).resolve_left fun h => other (by linarith)
  have end' : g = z := by
    rcases Set.mem_uIcc.1 between with ⟨_, _⟩ | ⟨_, _⟩
    · rw [abs_of_nonneg (by linarith : 0 ≤ g - q), ← same, abs_of_nonneg (by linarith)] at best
      linarith
    · rw [abs_of_nonpos (by linarith : g - q ≤ 0), ← same, abs_of_nonpos (by linarith)] at best
      linarith
  subst end'
  have apart : 2 ^ lastPlace p q ≤ |g - y| := by
    have difference : Multiple (lastPlace p q) (g - y) :=
      multiple.sub (exists_roundAt_eq _ _ _)
    rcases lt_or_gt_of_ne (sub_ne_zero.2 other) with negative | positive
    · rw [abs_of_neg negative]
      exact difference.neg.le_of_pos (neg_pos.2 negative)
    · rw [abs_of_pos positive]
      exact difference.le_of_pos positive
  have twice : |g - y| = 2 * |y - q| := by
    rw [show g - y = -(2 * (y - q)) by linarith, abs_neg, abs_mul, abs_two]
  linarith

theorem isNearest_round (pos : 0 < p) (q : Rat) : IsNearest p q (round p .nearest q) where
  float := isFloat_round p .nearest q
  best z hz := abs_round_nearest_sub_le pos hz q
  even z hz other same := by
    by_cases zero : q = 0
    · simp [zero, round] at same other
      exact absurd same other
    · rw [← lastPlace_eq zero, round, if_neg zero]
      exact roundAt_nearest_of_tie (tie_of_abs_sub_eq pos zero hz other same)

theorem IsNearest.unique (h : IsNearest p q y) (h' : IsNearest p q z) : y = z := by
  by_contra other
  have same : |y - q| = |z - q| := le_antisymm (h.best z h'.float) (h'.best y h.float)
  have nonzero : q ≠ 0 := by
    rintro rfl
    have := h.best 0 (isFloat_zero p)
    simp_all
  obtain ⟨k, even⟩ := h.even z h'.float (.symm other) same.symm
  obtain ⟨l, even'⟩ := h'.even y h.float other same
  have step : (0 : Rat) < 2 ^ (Int.log 2 |q| - p + 1) := by positivity
  have near : |y - q| ≤ 2 ^ (Int.log 2 |q| - p + 1) / 2 := by
    refine (h.best _ (isFloat_round p .nearest q)).trans ?_
    rw [← lastPlace_eq nonzero, round, if_neg nonzero]
    exact abs_roundAt_nearest_sub_le _ q
  -- they are two last places apart, and only one through the exact value
  have close : |y - z| ≤ 2 ^ (Int.log 2 |q| - p + 1) := by
    have := abs_sub_le y q z
    rw [abs_sub_comm q z] at this
    linarith
  have difference : y - z = 2 * ((k - l : Int) : Rat) * 2 ^ (Int.log 2 |q| - p + 1) := by
    rw [even, even']
    push_cast
    ring
  have one : 1 ≤ |((k - l : Int) : Rat)| := by
    have : k - l ≠ 0 := fun zero => other (sub_eq_zero.1 (by rw [difference, zero]; simp))
    exact_mod_cast Int.one_le_abs this
  rw [difference, abs_mul, abs_mul, abs_two, abs_of_pos step] at close
  nlinarith

/-! ### Correct rounding in every direction -/

theorem isRounding_round (pos : 0 < p) (r : Rounding) (q : Rat) :
    IsRounding p r q (round p r q) := by
  have below := isBelow_round_down pos q
  have above := isAbove_round_up pos q
  cases r with
  | nearest => exact isNearest_round pos q
  | down => exact below
  | up => exact above
  | zero =>
    rcases lt_or_ge q 0 with negative | nonneg
    · rw [round_zero_of_neg negative]
      refine ⟨.inr above, fun z neighbour => ?_⟩
      rcases neighbour with hz | hz
      · exact abs_le_abs_of_nonpos (above.nonpos negative.le) (hz.1.2.trans above.1.2)
      · rw [IsLeast.unique hz above]
    · rw [round_zero_of_nonneg nonneg]
      refine ⟨.inl below, fun z neighbour => ?_⟩
      rcases neighbour with hz | hz
      · rw [IsGreatest.unique hz below]
      · exact abs_le_abs_of_nonneg (below.nonneg nonneg) (below.1.2.trans hz.1.2)
  | away =>
    rcases lt_or_ge q 0 with negative | nonneg
    · rw [round_away_of_neg negative]
      refine ⟨.inl below, fun z neighbour => ?_⟩
      rcases neighbour with hz | hz
      · rw [IsGreatest.unique hz below]
      · exact abs_le_abs_of_nonpos (hz.nonpos negative.le) (below.1.2.trans hz.1.2)
    · rw [round_away_of_nonneg nonneg]
      refine ⟨.inr above, fun z neighbour => ?_⟩
      rcases neighbour with hz | hz
      · exact abs_le_abs_of_nonneg (hz.nonneg nonneg) (hz.1.2.trans above.1.2)
      · rw [IsLeast.unique hz above]

theorem IsNeighbour.nonneg (h : IsNeighbour p q y) (nonneg : 0 ≤ q) : 0 ≤ y :=
  h.elim (·.nonneg nonneg) fun above => nonneg.trans above.1.2

theorem IsNeighbour.nonpos (h : IsNeighbour p q y) (nonpos : q ≤ 0) : y ≤ 0 :=
  h.elim (fun below => below.1.2.trans nonpos) (·.nonpos nonpos)

theorem IsNeighbour.eq_of_abs_eq (hy : IsNeighbour p q y) (hz : IsNeighbour p q z)
    (same : |y| = |z|) : y = z := by
  rcases le_total 0 q with nonneg | nonpos
  · rwa [abs_of_nonneg (hy.nonneg nonneg), abs_of_nonneg (hz.nonneg nonneg)] at same
  · rwa [abs_of_nonpos (hy.nonpos nonpos), abs_of_nonpos (hz.nonpos nonpos), neg_inj] at same

theorem IsRounding.unique (h : IsRounding p r q y) (h' : IsRounding p r q z) : y = z := by
  cases r with
  | nearest => exact IsNearest.unique h h'
  | down => exact IsGreatest.unique h h'
  | up => exact IsLeast.unique h h'
  | zero => exact h.1.eq_of_abs_eq h'.1 (le_antisymm (h.2 z h'.1) (h'.2 y h.1))
  | away => exact h.1.eq_of_abs_eq h'.1 (le_antisymm (h'.2 y h.1) (h.2 z h'.1))

theorem isRounding_iff (pos : 0 < p) : IsRounding p r q y ↔ y = round p r q := by
  constructor
  · exact fun h => h.unique (isRounding_round pos r q)
  · rintro rfl
    exact isRounding_round pos r q

/-! ### The order -/

private theorem add_le_two_mul (less : z < y) (near : |y - q| ≤ |z - q|) : y + z ≤ 2 * q := by
  have squares := sq_le_sq.2 near
  have product : (y - z) * (y + z - 2 * q) ≤ 0 := by linarith
  linarith [nonpos_of_mul_nonpos_right product (sub_pos.2 less)]

theorem round_mono (pos : 0 < p) (r : Rounding) (le : q ≤ q') : round p r q ≤ round p r q' := by
  have down : round p .down q ≤ round p .down q' :=
    (isBelow_round_down pos q').2 ⟨isFloat_round p .down q, (round_down_le p q).trans le⟩
  have up : round p .up q ≤ round p .up q' :=
    (isAbove_round_up pos q).2 ⟨isFloat_round p .up q', le.trans (le_round_up p q')⟩
  cases r with
  | down => exact down
  | up => exact up
  | zero =>
    rcases lt_or_ge q 0 with negative | nonneg
    · rw [round_zero_of_neg negative]
      rcases lt_or_ge q' 0 with negative' | nonneg'
      · rwa [round_zero_of_neg negative']
      · rw [round_zero_of_nonneg nonneg']
        exact ((isAbove_round_up pos q).nonpos negative.le).trans
          ((isBelow_round_down pos q').nonneg nonneg')
    · rwa [round_zero_of_nonneg nonneg, round_zero_of_nonneg (nonneg.trans le)]
  | away =>
    rcases lt_or_ge q 0 with negative | nonneg
    · rw [round_away_of_neg negative]
      rcases lt_or_ge q' 0 with negative' | nonneg'
      · rwa [round_away_of_neg negative']
      · rw [round_away_of_nonneg nonneg']
        exact (round_down_le p q).trans (le.trans (le_round_up p q'))
    · rwa [round_away_of_nonneg nonneg, round_away_of_nonneg (nonneg.trans le)]
  | nearest =>
    -- floats in the wrong order would put the middle between them on both sides
    by_contra less
    rw [not_le] at less
    have above := add_le_two_mul less (abs_round_nearest_sub_le pos (isFloat_round p .nearest q') q)
    have below := add_le_two_mul (neg_lt_neg less) (by
      rw [← neg_add', ← neg_add', abs_neg, abs_neg, ← sub_eq_add_neg, ← sub_eq_add_neg]
      exact abs_round_nearest_sub_le pos (isFloat_round p .nearest q) q')
    have equal : q = q' := by linarith
    exact less.ne (by rw [equal])

theorem round_pos (pos : 0 < p) (r : Rounding) (positive : 0 < q) : 0 < round p r q := by
  have low := (floorLog2_abs positive.ne').1
  rw [abs_of_pos positive] at low
  have power : IsFloat p (2 ^ floorLog2 q.num.natAbs q.den) := by
    refine ⟨_, multiple_pow le_rfl, ?_⟩
    rw [abs_of_pos (by positivity)]
    exact le_mul_of_one_le_left (by positivity) (one_le_pow₀ one_le_two)
  calc 0 < 2 ^ floorLog2 q.num.natAbs q.den := by positivity
    _ = round p r (2 ^ floorLog2 q.num.natAbs q.den) := (power.round_eq pos).symm
    _ ≤ round p r q := round_mono pos r low

theorem round_eq_zero_iff (pos : 0 < p) : round p r q = 0 ↔ q = 0 := by
  constructor
  · intro none
    rcases lt_trichotomy q 0 with negative | zero | positive
    · have opposite := round_pos pos r.flip (neg_pos.2 negative)
      rw [round_flip_neg, none] at opposite
      exact absurd opposite (lt_irrefl 0)
    · exact zero
    · exact absurd none (round_pos pos r positive).ne'
  · rintro rfl
    simp [round]

/-! ### Mantissas -/

theorem isFloat_iff (pos : 0 < p) :
    IsFloat p y ↔ y = 0 ∨ ∃ m e : Int, Odd m ∧ |m| < 2 ^ p ∧ y = m * 2 ^ e := by
  constructor
  · rintro ⟨e, ⟨k, rfl⟩, small⟩
    by_cases zero : k = 0
    · exact .inl (by simp [zero])
    have step : (0 : Rat) < 2 ^ e := by positivity
    rw [abs_mul, abs_of_pos step] at small
    have count : |k| ≤ 2 ^ p := by exact_mod_cast le_of_mul_le_mul_right small step
    have finite : FiniteMultiplicity 2 k := Int.finiteMultiplicity_iff.2 ⟨by decide, zero⟩
    obtain ⟨m, split, odd⟩ := finite.exists_eq_pow_mul_and_not_dvd
    have odd : Odd m := Int.not_even_iff_odd.1 fun even => odd even.two_dvd
    have atMost : |m| ≤ 2 ^ p := by
      refine le_trans ?_ count
      rw [split, abs_mul, abs_pow]
      exact le_mul_of_one_le_left (abs_nonneg m) (one_le_pow₀ one_le_two)
    -- the limit itself is even
    have even : Even ((2 : Int) ^ p) := (Int.even_pow.2 ⟨even_two, pos.ne'⟩)
    have less : |m| < 2 ^ p := atMost.lt_of_ne fun same =>
      Int.not_even_iff_odd.2 odd (even_abs.1 (same ▸ even))
    refine .inr ⟨m, multiplicity 2 k + e, odd, less, ?_⟩
    rw [zpow_add₀ two_ne_zero, zpow_natCast]
    nth_rewrite 1 [split]
    push_cast
    ring
  · rintro (rfl | ⟨m, e, -, small, rfl⟩)
    · exact isFloat_zero p
    · have step : (0 : Rat) < 2 ^ e := by positivity
      refine ⟨e, ⟨m, rfl⟩, ?_⟩
      rw [abs_mul, abs_of_pos step]
      exact mul_le_mul_of_nonneg_right (by exact_mod_cast small.le) step.le

private theorem exponent_le {m m' e e' : Int} (odd : Odd m)
    (same : (m : Rat) * 2 ^ e = m' * 2 ^ e') : e' ≤ e := by
  by_contra less
  obtain ⟨n, rfl⟩ := Int.le.dest (not_le.1 less).le
  have whole : m = m' * 2 ^ n := by
    rw [zpow_add₀ two_ne_zero, mul_left_comm, mul_comm] at same
    exact_mod_cast mul_left_cancel₀ (by positivity : (2 : Rat) ^ e ≠ 0) same
  refine Int.not_even_iff_odd.2 odd ?_
  rw [whole]
  exact (Int.even_pow.2 ⟨even_two, by omega⟩).mul_left m'

theorem mantissa_unique {m m' e e' : Int} (odd : Odd m) (odd' : Odd m')
    (same : (m : Rat) * 2 ^ e = m' * 2 ^ e') : m = m' ∧ e = e' := by
  obtain rfl : e = e' := le_antisymm (exponent_le odd' same.symm) (exponent_le odd same)
  have step : (2 : Rat) ^ e ≠ 0 := by positivity
  exact ⟨by exact_mod_cast mul_right_cancel₀ step same, rfl⟩

/-- What says which float it is: that it is zero or an infinity, or a mantissa and the exponent of a
power of two. -/
inductive Parts
  | zero
  | negInf
  | posInf
  | finite (mantissa exponent : Int)

namespace Parts

def value : Parts → ExtRat
  | zero => .fin 0
  | negInf => .negInf
  | posInf => .posInf
  | finite m e => .fin (m * pow2 e)

def IsNormal (p : Nat) : Parts → Prop
  | finite m _ => Odd m ∧ |m| < 2 ^ p
  | _ => True

theorem value_finite_ne_zero {m e : Int} (normal : (finite m e).IsNormal p) :
    (m : Rat) * pow2 e ≠ 0 := by
  have nonzero : m ≠ 0 := by
    rintro rfl
    exact Int.not_even_iff_odd.2 normal.1 .zero
  exact mul_ne_zero (by exact_mod_cast nonzero) (pow2_pos e).ne'

theorem value_inj {p p' : Nat} {s t : Parts} (hs : s.IsNormal p) (ht : t.IsNormal p') :
    s.value = t.value ↔ s = t := by
  refine ⟨fun same => ?_, congrArg value⟩
  cases s with
  | zero =>
    cases t with
    | zero => rfl
    | finite m e => exact absurd (ExtRat.fin.inj same).symm (value_finite_ne_zero ht)
    | _ => cases same
  | finite m e =>
    cases t with
    | zero => exact absurd (ExtRat.fin.inj same) (value_finite_ne_zero hs)
    | finite m' e' =>
      have values := ExtRat.fin.inj same
      rw [pow2_eq, pow2_eq] at values
      obtain ⟨rfl, rfl⟩ := mantissa_unique hs.1 ht.1 values
      rfl
    | _ => cases same
  | _ => cases t <;> first | rfl | cases same

end Parts

theorem existsUnique_parts (pos : 0 < p) {v : ExtRat} (h : (Kind.binary p).Represents v) :
    ∃! s : Parts, s.IsNormal p ∧ s.value = v := by
  have found : ∃ s : Parts, s.IsNormal p ∧ s.value = v := by
    cases v with
    | negInf => exact ⟨.negInf, trivial, rfl⟩
    | posInf => exact ⟨.posInf, trivial, rfl⟩
    | fin y =>
      rcases (isFloat_iff pos).1 h with rfl | ⟨m, e, odd, small, rfl⟩
      · exact ⟨.zero, trivial, rfl⟩
      · exact ⟨.finite m e, ⟨odd, small⟩, by rw [Parts.value, pow2_eq]⟩
  obtain ⟨s, normal, value⟩ := found
  refine ⟨s, ⟨normal, value⟩, fun t other => ?_⟩
  exact (Parts.value_inj other.1 normal).1 (other.2.trans value.symm)

/-! ### Arithmetic -/

def Rounds (p : Nat) (r : Rounding) : ExtRat → ExtRat → Prop
  | .fin q, .fin y => IsRounding p r q y
  | x, v => v = x

theorem rounds_iff (pos : 0 < p) {x v : ExtRat} :
    Rounds p r x v ↔ v = (Kind.binary p).round r x := by
  cases x with
  | fin q =>
    cases v with
    | fin y => exact (isRounding_iff pos).trans (by rw [Kind.round, ExtRat.fin.injEq])
    | _ => exact iff_of_false (by simp [Rounds]) (by simp [Kind.round])
  | _ => cases v <;> exact .rfl

/-- The number is the float of `p` bits to which an exact result is rounded. -/
structure RoundsTo (p : Nat) (r : Rounding) (x : ExtRat) (z : Number) : Prop where
  kind : z.kind = .binary p
  value : Rounds p r x z.value

theorem roundsTo_iff (pos : 0 < p) {x : ExtRat} {z : Number} :
    RoundsTo p r x z ↔ z = Number.ofExt (.binary p) r x := by
  rw [Number.ofExt, Number.mk.injEq, ← rounds_iff pos]
  exact ⟨fun h => ⟨h.kind, h.value⟩, fun h => ⟨h.1, h.2⟩⟩

theorem build_eq (pos : 0 < p) (r : Rounding) (x : ExtRat) :
    Number.build (.binary p) r x = .ok (Number.ofExt (.binary p) r x) := by
  rw [Number.build, (Kind.isOutward_binary pos).require_eq]
  rfl

theorem map_ofExt_eq_some_iff (pos : 0 < p) {x? : Option ExtRat} {z : Number} :
    x?.map (Number.ofExt (.binary p) r) = some z ↔ ∃ x, x? = some x ∧ RoundsTo p r x z := by
  rw [Option.map_eq_some_iff]
  exact exists_congr fun x => and_congr_right fun _ => eq_comm.trans (roundsTo_iff pos).symm

/-- The floats of `p` bits are zero and the odd multiples of powers of two whose multiplier has at
most `p` bits. -/
theorem results_correctly_rounded (pos : 0 < p) :
    (∀ y, IsFloat p y ↔ y = 0 ∨ ∃ m e : Int, Odd m ∧ |m| < 2 ^ p ∧ y = m * 2 ^ e) ∧
    (∀ (r : Rounding) (q : Rat), ∃ y,
      Number.build (.binary p) r (.fin q) = .ok ⟨.binary p, .fin y⟩ ∧
      IsRounding p r q y ∧ (∀ z, IsRounding p r q z → z = y) ∧
      (y = 0 ↔ q = 0) ∧ (q ≠ 0 → ∃ m e : Int, Odd m ∧ |m| < 2 ^ p ∧ y = m * 2 ^ e) ∧
      Number.build (.binary p) r.flip (.fin (-q)) = .ok (Number.neg ⟨.binary p, .fin y⟩) ∧
      ∀ q' y', q ≤ q' →
        Number.build (.binary p) r (.fin q') = .ok ⟨.binary p, .fin y'⟩ → y ≤ y') ∧
    ∀ (p' : Nat) (a b : Number), 0 < p' → a.Fits (.binary p) → b.Fits (.binary p') →
      (∀ r z, a.sum? r b = some z ↔
        ∃ x, a.value.add? b.value = some x ∧ RoundsTo (max p p') r x z) ∧
      (∀ r z, a.sum? r b.neg = some z ↔
        ∃ x, a.value.sub? b.value = some x ∧ RoundsTo (max p p') r x z) ∧
      (∀ r, RoundsTo (max p p') r (a.value.mul b.value) (a.mul r b)) ∧
      (∀ r z, a.div? r b = some z ↔
        ∃ x, a.value.div? b.value = some x ∧ RoundsTo (max p p') r x z) ∧
      (∀ r, ∃ z, Number.build (.binary p') r a.value = .ok z ∧ RoundsTo p' r a.value z) ∧
      (∃! s : Parts, s.IsNormal p ∧ s.value = a.value) ∧
      ∀ s t : Parts, s.IsNormal p → s.value = a.value → t.IsNormal p' → t.value = b.value →
        (a.same b = true ↔ s = t) ∧ (s = t ↔ a.value = b.value) := by
  refine ⟨fun y => isFloat_iff pos, fun r q => ?_, fun p' a b pos' ha hb => ?_⟩
  · refine ⟨round p r q, build_eq pos r _, isRounding_round pos r q,
      fun z => (isRounding_iff pos).1, round_eq_zero_iff pos, fun nonzero => ?_, ?_,
      fun q' y' le built => ?_⟩
    · exact ((isFloat_iff pos).1 (isFloat_round p r q)).resolve_left
        (mt (round_eq_zero_iff pos).1 nonzero)
    · rw [build_eq pos, Number.neg, Number.ofExt, Kind.round, round_flip_neg]
      rfl
    · rw [build_eq pos] at built
      obtain rfl : round p r q' = y' := by simpa [Number.ofExt, Kind.round] using built
      exact round_mono pos r le
  · have pos'' : 0 < max p p' := lt_max_of_lt_left pos
    have directed : a.kind ≠ .double := by simp [ha.kind]
    have common : a.kind.common b.kind = .binary (max p p') := by
      rw [ha.kind, hb.kind]
      rfl
    refine ⟨fun r z => ?_, fun r z => ?_, fun r => ?_, fun r z => ?_, fun r => ?_,
      existsUnique_parts pos ha.value, fun s t hs valueS ht valueT => ?_⟩
    · rw [Number.sum?_eq directed, common, map_ofExt_eq_some_iff pos'']
    · have common' : a.kind.common b.neg.kind = .binary (max p p') := common
      rw [Number.sum?_eq directed, common', map_ofExt_eq_some_iff pos'']
      rfl
    · rw [roundsTo_iff pos'', Number.mul_eq directed, common]
    · rw [Number.div?_eq directed, common, map_ofExt_eq_some_iff pos'']
    · exact ⟨_, build_eq pos' r _, (roundsTo_iff pos').2 rfl⟩
    · have same : a.same b = true ↔ a.value = b.value := decide_eq_true_iff
      have parts := Parts.value_inj hs ht
      rw [valueS, valueT] at parts
      exact ⟨same.trans parts, parts.symm⟩

/-- With three bits, nine lies halfway between eight and ten, and eleven between ten and twelve. -/
theorem ties_and_third_rounded :
    let a : Number := ⟨.binary 3, .fin 1⟩
    let b : Number := ⟨.binary 8, .fin 3⟩
    let third : Number := ⟨.binary 8, .fin (85 / 256)⟩
    0 < 3 ∧ IsRounding 3 .nearest 9 8 ∧ IsRounding 3 .nearest 11 12 ∧ IsRounding 3 .away 9 10 ∧
    a.Fits (.binary 3) ∧ b.Fits (.binary 8) ∧
    a.div? .down b = some third ∧ RoundsTo 8 .down (.fin (1 / 3)) third := by
  intro a b third
  have ha : a.Fits (.binary 3) := ⟨rfl, 0, ⟨1, by norm_num⟩, by norm_num⟩
  have hb : b.Fits (.binary 8) := ⟨rfl, 0, ⟨3, by norm_num⟩, by norm_num⟩
  have quotient : a.div? .down b = some third := by decide +kernel
  obtain ⟨-, rounded, arithmetic⟩ := results_correctly_rounded (p := 3) (by decide)
  have rounding (r : Rounding) (q y : Rat) (value : round 3 r q = y) : IsRounding 3 r q y := by
    obtain ⟨z, built, correct, -⟩ := rounded r q
    rw [build_eq (by decide)] at built
    obtain rfl : round 3 r q = z := by simpa [Number.ofExt, Kind.round] using built
    rwa [← value]
  obtain ⟨-, -, -, quotients, -⟩ := arithmetic 8 a b (by decide) ha hb
  obtain ⟨x, exact, correct⟩ := (quotients .down third).1 quotient
  have value : x = .fin (1 / 3) := Option.some.inj (exact.symm.trans (by decide +kernel))
  exact ⟨by decide, rounding _ _ _ (by decide +kernel), rounding _ _ _ (by decide +kernel),
    rounding _ _ _ (by decide +kernel), ha, hb, quotient, value ▸ correct⟩

end Enclosure.Binary
