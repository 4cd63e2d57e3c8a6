import Enclosure.Proofs.CorrectRounding
import Enclosure.Proofs.RealIntervals

/-!
# Correctly rounded square roots

A root is the integer root of a fraction, in steps that leave it `p` bits.
-/

namespace Enclosure.Binary

open Double (Multiple multiple_pow)

variable {p n d k : Nat} {q y z : Rat} {e : Int} {r : Rounding}

/-- The float of precision `p` that `r` selects for the root of `q`. -/
def IsRoot (p : Nat) (r : Rounding) (q y : Rat) : Prop :=
  match r with
  | .down => IsGreatest {z | IsFloat p z ∧ z * z ≤ q} y
  | .zero => IsGreatest {z | IsFloat p z ∧ z * z ≤ q} y
  | .up => IsLeast {z | IsFloat p z ∧ 0 ≤ z ∧ q ≤ z * z} y
  | .away => IsLeast {z | IsFloat p z ∧ 0 ≤ z ∧ q ≤ z * z} y
  | .nearest => IsFloat p y ∧ ∀ z, IsFloat p z → |(y : ℝ) - √q| ≤ |(z : ℝ) - √q|

/-! ### Settling a root -/

theorem settleSqrt_zero (n d : Nat) : settleSqrt .zero n d = settleSqrt .down n d := by
  simp [settleSqrt, Rounding.enlarges]

theorem settleSqrt_away (n d : Nat) : settleSqrt .away n d = settleSqrt .up n d := by
  simp [settleSqrt, Rounding.enlarges]

theorem settleSqrt_up_le (pos : 0 < d) (le : n ≤ k * k * d) : settleSqrt .up n d ≤ k := by
  have squares : (n / d).sqrt * (n / d).sqrt ≤ k * k :=
    Nat.le_of_mul_le_mul_right (sqrt_mul_sqrt_le.trans le) pos
  have whole : (n / d).sqrt ≤ k := Nat.mul_self_le_mul_self_iff.1 squares
  unfold settleSqrt
  dsimp only
  split
  · exact whole
  · rename_i inexact
    refine Nat.lt_of_le_of_ne whole fun same => inexact ?_
    exact le_antisymm sqrt_mul_sqrt_le (same ▸ le)

theorem settleSqrt_nearest_cases (n d : Nat) :
    settleSqrt .nearest n d = settleSqrt .down n d ∧
        4 * n ≤ (settleSqrt .down n d + settleSqrt .up n d) ^ 2 * d ∨
      settleSqrt .nearest n d = settleSqrt .up n d ∧
        (settleSqrt .down n d + settleSqrt .up n d) ^ 2 * d ≤ 4 * n := by
  by_cases exact : (n / d).sqrt * (n / d).sqrt * d = n
  · left
    simp only [settleSqrt, if_pos exact, true_and]
    nlinarith
  · simp only [settleSqrt, if_neg exact, Rounding.enlarges, Bool.not_false, Bool.false_eq_true,
      if_false, if_true]
    have middle : ((n / d).sqrt + ((n / d).sqrt + 1)) ^ 2 * d =
        (2 * (n / d).sqrt + 1) * (2 * (n / d).sqrt + 1) * d := by ring
    split <;> omega

theorem settleSqrt_eq_down_or_up (r : Rounding) (n d : Nat) :
    settleSqrt r n d = settleSqrt .down n d ∨ settleSqrt r n d = settleSqrt .up n d := by
  cases r with
  | nearest => exact (settleSqrt_nearest_cases n d).imp And.left And.left
  | zero => exact .inl (settleSqrt_zero n d)
  | up => exact .inr rfl
  | down => exact .inl rfl
  | away => exact .inr (settleSqrt_away n d)

/-! ### Directed roots -/

theorem sqrt_zero : sqrt p r 0 = 0 := if_pos rfl

theorem sqrt_eq_down_or_up (p : Nat) (r : Rounding) (nonneg : 0 ≤ q) :
    sqrt p r q = sqrt p .down q ∨ sqrt p r q = sqrt p .up q := by
  by_cases zero : q = 0
  · simp [zero, sqrt_zero]
  · obtain ⟨n, d, e, -, -, -, -, root⟩ := sqrt_cases nonneg zero
    rw [root, root, root]
    exact (settleSqrt_eq_down_or_up r n d).imp (fun same => by rw [same]) fun same => by rw [same]

theorem sqrt_toward_zero (p : Nat) (q : Rat) : sqrt p .zero q = sqrt p .down q := by
  simp only [sqrt, settleSqrt_zero]

theorem sqrt_away (p : Nat) (q : Rat) : sqrt p .away q = sqrt p .up q := by
  simp only [sqrt, settleSqrt_away]

theorem exists_steps (multiple : Multiple e z) (nonneg : 0 ≤ z) : ∃ k : Nat, z = k * 2 ^ e := by
  obtain ⟨m, value⟩ := multiple
  have step : (0 : Rat) < 2 ^ e := by positivity
  rw [value, mul_nonneg_iff_of_pos_right step] at nonneg
  lift m to Nat using by exact_mod_cast nonneg
  exact ⟨m, by exact_mod_cast value⟩

theorem le_sqrt_down (pos : 0 < p) (float : IsFloat p z) (square : z * z ≤ q) :
    z ≤ sqrt p .down q := by
  rcases le_or_gt z 0 with nonpos | positive
  · exact nonpos.trans (sqrt_nonneg p .down)
  have above : 0 < q := (mul_pos positive positive).trans_le square
  obtain ⟨n, d, e, posDen, value, -, low, root⟩ := sqrt_cases above.le above.ne'
  have steps : ∀ w, Multiple e w → 0 ≤ w → w * w ≤ q → w ≤ sqrt p .down q := by
    intro w multiple nonneg le
    obtain ⟨k, rfl⟩ := exists_steps multiple nonneg
    rw [value, steps_sq posDen, fraction_le_iff posDen] at le
    have settled : k ≤ (n / d).sqrt := Nat.le_sqrt.2 ((Nat.le_div_iff_mul_le posDen).2 le)
    rw [root, settleSqrt_down]
    exact mul_le_mul_of_nonneg_right (by exact_mod_cast settled) (by positivity)
  rcases float.multiple_or_abs_le e with multiple | small
  · exact steps z multiple positive.le square
  · -- a smaller float does not reach the power of two below the root
    exact ((le_abs_self z).trans small).trans
      (steps _ (multiple_pow (by omega)) (by positivity) low)

theorem sqrt_up_le (pos : 0 < p) (float : IsFloat p z) (nonneg : 0 ≤ q) (nonneg' : 0 ≤ z)
    (square : q ≤ z * z) : sqrt p .up q ≤ z := by
  by_cases zero : q = 0
  · rwa [zero]
  obtain ⟨n, d, e, posDen, value, -, low, root⟩ := sqrt_cases nonneg zero
  have multiple : Multiple e z := by
    rcases float.multiple_or_abs_le e with multiple | small
    · exact multiple
    · -- only the power of two below the root is left
      rw [abs_of_nonneg nonneg'] at small
      have large : 2 ^ (e + p - 1) ≤ z :=
        nonneg_le_nonneg_of_sq_le_sq nonneg' (low.trans square)
      exact le_antisymm small large ▸ multiple_pow (by omega)
  obtain ⟨k, rfl⟩ := exists_steps multiple nonneg'
  rw [value, steps_sq posDen, fraction_le_iff posDen] at square
  rw [root]
  exact mul_le_mul_of_nonneg_right (by exact_mod_cast settleSqrt_up_le posDen square)
    (by positivity)

theorem sqrt_down_le_up (p : Nat) (nonneg : 0 ≤ q) : sqrt p .down q ≤ sqrt p .up q :=
  nonneg_le_nonneg_of_sq_le_sq (sqrt_nonneg p .up)
    ((sqrt_down_sq_le p nonneg).trans (le_sqrt_up_sq p nonneg))

theorem sqrt_mul_self (pos : 0 < p) (float : IsFloat p z) : sqrt p r (z * z) = |z| := by
  have nonneg : 0 ≤ z * z := mul_self_nonneg z
  have float' : IsFloat p |z| := by
    rcases abs_choice z with same | negated
    · rwa [same]
    · rw [negated]
      exact float.neg
  have low : |z| ≤ sqrt p .down (z * z) := le_sqrt_down pos float' (abs_mul_abs_self z).le
  have high : sqrt p .up (z * z) ≤ |z| :=
    sqrt_up_le pos float' nonneg (abs_nonneg z) (abs_mul_abs_self z).ge
  have order := sqrt_down_le_up p nonneg
  rcases sqrt_eq_down_or_up p r nonneg with down | up
  · rw [down]
    exact le_antisymm (order.trans high) low
  · rw [up]
    exact le_antisymm high (low.trans order)

/-! ### The nearest root -/

theorem sqrt_nearest_cases (p : Nat) (nonneg : 0 ≤ q) :
    sqrt p .nearest q = sqrt p .down q ∧ 4 * q ≤ (sqrt p .down q + sqrt p .up q) ^ 2 ∨
      sqrt p .nearest q = sqrt p .up q ∧ (sqrt p .down q + sqrt p .up q) ^ 2 ≤ 4 * q := by
  by_cases zero : q = 0
  · simp [zero, sqrt_zero]
  obtain ⟨n, d, e, posDen, value, -, -, root⟩ := sqrt_cases nonneg zero
  have sides : (sqrt p .down q + sqrt p .up q) ^ 2 =
      ((settleSqrt .down n d + settleSqrt .up n d) ^ 2 * d : Nat) / d * (2 ^ e * 2 ^ e) := by
    rw [root, root]
    push_cast
    field_simp
  have fraction : 4 * q = (4 * n : Nat) / d * (2 ^ e * 2 ^ e) := by
    rw [value]
    push_cast
    ring
  rw [sides, fraction, fraction_le_iff posDen, fraction_le_iff posDen, root, root, root]
  exact (settleSqrt_nearest_cases n d).imp (.imp_left fun same => by rw [same])
    (.imp_left fun same => by rw [same])

theorem le_sqrt_down_or_sqrt_up_le (pos : 0 < p) (nonneg : 0 ≤ q) (float : IsFloat p z) :
    z ≤ sqrt p .down q ∨ sqrt p .up q ≤ z := by
  rcases le_or_gt (z * z) q with below | above
  · exact .inl (le_sqrt_down pos float below)
  rcases le_or_gt 0 z with positive | negative
  · exact .inr (sqrt_up_le pos float nonneg positive above.le)
  · exact .inl (negative.le.trans (sqrt_nonneg p .down))

theorem abs_sqrt_nearest_sub_le (pos : 0 < p) (nonneg : 0 ≤ q) (float : IsFloat p z) :
    |(sqrt p .nearest q : ℝ) - √q| ≤ |(z : ℝ) - √q| := by
  obtain ⟨l, down⟩ : ∃ l, sqrt p .down q = l := ⟨_, rfl⟩
  obtain ⟨u, up⟩ : ∃ u, sqrt p .up q = u := ⟨_, rfl⟩
  have lowNonneg : 0 ≤ l := down ▸ sqrt_nonneg p .down
  have highNonneg : 0 ≤ u := up ▸ sqrt_nonneg p .up
  have low : l ≤ √q := by
    apply Real.le_sqrt_of_sq_le
    rw [pow_two]
    exact_mod_cast down ▸ sqrt_down_sq_le p nonneg
  have high : √q ≤ u := by
    refine Real.sqrt_le_iff.2 ⟨by exact_mod_cast highNonneg, ?_⟩
    rw [pow_two]
    exact_mod_cast up ▸ le_sqrt_up_sq p nonneg
  -- the middle is compared with the root as its square is with the rational
  have double : 2 * √q = √(4 * q) := by
    rw [Real.sqrt_mul (by norm_num), show (4 : ℝ) = 2 ^ 2 by norm_num, Real.sqrt_sq (by norm_num)]
  have side := le_sqrt_down_or_sqrt_up_le pos nonneg float
  have nearest := sqrt_nearest_cases p nonneg
  rw [down, up] at side nearest
  have far : √q - l ≤ |z - √q| ∨ u - √q ≤ |z - √q| := by
    have apart := neg_abs_le (z - √q)
    have apart' := le_abs_self (z - √q)
    refine side.imp (fun below => ?_) fun above => ?_
    · have : (z : ℝ) ≤ l := by exact_mod_cast below
      linarith
    · have : (u : ℝ) ≤ z := by exact_mod_cast above
      linarith
  rcases nearest with ⟨same, middle⟩ | ⟨same, middle⟩
  · have before : 2 * √q ≤ l + u := by
      rw [double]
      exact Real.sqrt_le_iff.2 ⟨by exact_mod_cast add_nonneg lowNonneg highNonneg,
        by exact_mod_cast middle⟩
    rw [same, abs_of_nonpos (sub_nonpos.2 low)]
    rcases far with far | far <;> linarith
  · have after : (l + u) ≤ 2 * √q := by
      rw [double]
      exact Real.le_sqrt_of_sq_le (by exact_mod_cast middle)
    rw [same, abs_of_nonneg (sub_nonneg.2 high)]
    rcases far with _ | _ <;> linarith

theorem isRoot_sqrt (pos : 0 < p) (r : Rounding) (nonneg : 0 ≤ q) : IsRoot p r q (sqrt p r q) := by
  have down : IsGreatest {z | IsFloat p z ∧ z * z ≤ q} (sqrt p .down q) :=
    ⟨⟨isFloat_sqrt p .down nonneg, sqrt_down_sq_le p nonneg⟩,
      fun z below => le_sqrt_down pos below.1 below.2⟩
  have up : IsLeast {z | IsFloat p z ∧ 0 ≤ z ∧ q ≤ z * z} (sqrt p .up q) :=
    ⟨⟨isFloat_sqrt p .up nonneg, sqrt_nonneg p .up, le_sqrt_up_sq p nonneg⟩,
      fun z above => sqrt_up_le pos above.1 nonneg above.2.1 above.2.2⟩
  cases r with
  | nearest =>
    exact ⟨isFloat_sqrt p .nearest nonneg, fun z float => abs_sqrt_nearest_sub_le pos nonneg float⟩
  | zero => exact (sqrt_toward_zero p q).symm ▸ down
  | up => exact up
  | down => exact down
  | away => exact (sqrt_away p q).symm ▸ up

/-! ### Roots of numbers and of intervals -/

/-- The root of a finite float that is not negative exists at its precision in every direction, is
correctly rounded, and is exact where a float is. -/
theorem roots_correctly_rounded (pos : 0 < p) :
    (∀ (a : Number) (q : Rat) (r : Rounding), a.Fits (.binary p) → a.value = .fin q → 0 ≤ q →
      ∃ y, a.sqrt? r = some ⟨.binary p, .fin y⟩ ∧ IsFloat p y ∧ 0 ≤ y ∧ IsRoot p r q y ∧
        ((∃ z, IsFloat p z ∧ z * z = q) → y * y = q)) ∧
      (∀ q : Rat, 0 ≤ q →
        (∃ l, Number.sqrt? .down ⟨.rational, .fin q⟩ = some ⟨.rational, .fin l⟩ ∧ l * l ≤ q) ∧
          ∃ u, Number.sqrt? .up ⟨.rational, .fin q⟩ = some ⟨.rational, .fin u⟩ ∧ q ≤ u * u) ∧
      ∀ (i : Interval) (q : Rat), i.IsRational → i.Has q → 0 ≤ q → i.sqrt.Encloses (√q) := by
  refine ⟨?_, ?_, ?_⟩
  · intro a q r fits value nonneg
    refine ⟨sqrt p r q, ?_, isFloat_sqrt p r nonneg, sqrt_nonneg p r, isRoot_sqrt pos r nonneg, ?_⟩
    · unfold Number.sqrt?
      rw [fits.1]
      simp [value, Number.sqrtTo?, nonneg.not_gt]
    · rintro ⟨z, float, rfl⟩
      rw [sqrt_mul_self pos float, abs_mul_abs_self]
  · intro q nonneg
    obtain ⟨l, down, -, below⟩ := Number.sqrt?_down (x := ⟨.rational, .fin q⟩) (by simp) rfl nonneg
    obtain ⟨u, up, -, above⟩ := Number.sqrt?_up (x := ⟨.rational, .fin q⟩) (by simp) rfl nonneg
    exact ⟨⟨l, down, below⟩, u, up, above⟩
  · intro i q rational has nonneg
    refine Interval.Encloses.sqrt (by simp [rational.lo]) (by simp [rational.hi])
      (Interval.encloses_ratCast.2 has) ?_
    exact_mod_cast nonneg

/-- With four bits, the root of six lies between nine fourths and five halves and nearer to the
latter, and the root of nine fourths is exact. -/
theorem root_of_six_rounded :
    let six : Number := ⟨.binary 4, .fin 6⟩
    let ratio : Number := ⟨.binary 4, .fin (9 / 4)⟩
    0 < 4 ∧ six.Fits (.binary 4) ∧ ratio.Fits (.binary 4) ∧
    IsRoot 4 .zero 6 (9 / 4) ∧ IsRoot 4 .up 6 (5 / 2) ∧ IsRoot 4 .nearest 6 (5 / 2) ∧
    ratio.sqrt? .nearest = some ⟨.binary 4, .fin (3 / 2)⟩ ∧
    (Interval.ofExt (.fin (-1)) (.fin 2)).sqrt.Encloses (√(2 : Rat)) := by
  intro six ratio
  have hs : six.Fits (.binary 4) := ⟨rfl, 0, ⟨6, by norm_num⟩, by norm_num⟩
  have hr : ratio.Fits (.binary 4) := ⟨rfl, -2, ⟨9, by norm_num⟩, by norm_num⟩
  obtain ⟨floats, -, intervals⟩ := roots_correctly_rounded (p := 4) (by decide)
  have root (r : Rounding) (y : Rat) (value : six.sqrt? r = some ⟨.binary 4, .fin y⟩) :
      IsRoot 4 r 6 y := by
    obtain ⟨z, given, -, -, correct, -⟩ := floats six 6 r hs rfl (by decide)
    obtain rfl : y = z := by simpa using value.symm.trans given
    exact correct
  exact ⟨by decide, hs, hr, root _ _ (by decide +kernel), root _ _ (by decide +kernel),
    root _ _ (by decide +kernel), by decide +kernel,
    intervals _ 2 (Interval.isRational_ofExt _ _) (by norm_num [Interval.has_ofExt_fin])
      (by decide)⟩

end Enclosure.Binary
