import Enclosure.Proofs.Doubles
import Mathlib.Data.Rat.Floor

/-!
# Binary floats

A float of `p` bits is a multiple of a power of two, and at most `2 ^ p` steps of it from zero.
-/

namespace Enclosure.Binary

open Double (Multiple)

variable {p : Nat} {q : Rat} {e : Int} {r : Rounding}

/-- The floats of `p` bits: some number of steps from zero that `p` bits can count, or `2 ^ p`
steps, which are half as many of twice the size. -/
def IsFloat (p : Nat) (q : Rat) : Prop := ∃ e : Int, Multiple e q ∧ |q| ≤ 2 ^ p * 2 ^ e

theorem isFloat_zero (p : Nat) : IsFloat p 0 := ⟨0, ⟨0, by simp⟩, by simp⟩

theorem IsFloat.neg (h : IsFloat p q) : IsFloat p (-q) := by
  obtain ⟨e, multiple, _⟩ := h
  exact ⟨e, multiple.neg, by rwa [abs_neg]⟩

theorem isFloat_intCast {n : Int} (small : |n| ≤ 2 ^ p) : IsFloat p n := by
  refine ⟨0, ⟨n, by simp⟩, ?_⟩
  rw [zpow_zero, mul_one]
  exact_mod_cast small

/-! ### Rounding -/

theorem roundAt_eq_self (h : Multiple e q) : roundAt e r q = q := by
  have difference : Multiple e (roundAt e r q - q) := .sub (exists_roundAt_eq e r q) h
  have none := difference.abs_le_of_lt (n := 0) (by simpa using abs_roundAt_sub_lt e r q)
  rw [Nat.cast_zero, zero_mul, abs_nonpos_iff] at none
  exact sub_eq_zero.1 none

theorem abs_lt_of_lastPlace (nonzero : q ≠ 0) : |q| < 2 ^ p * 2 ^ lastPlace p q := by
  rw [← zpow_natCast, ← zpow_add₀ two_ne_zero]
  convert (floorLog2_abs nonzero).2 using 2
  unfold lastPlace
  ring

theorem isFloat_roundAt (r : Rounding) (small : |q| < 2 ^ p * 2 ^ e) :
    IsFloat p (roundAt e r q) := by
  have multiple : Multiple e (roundAt e r q) := exists_roundAt_eq e r q
  refine ⟨e, multiple, ?_⟩
  -- less than one step is added, so the next multiple is not reached
  have near := abs_roundAt_sub_lt e r q
  have triangle := abs_sub_abs_le_abs_sub (roundAt e r q) q
  have under : |roundAt e r q| < ((2 ^ p : Nat) + 1) * 2 ^ e := by
    push_cast
    linarith
  exact_mod_cast multiple.abs_le_of_lt under

theorem isFloat_round (p : Nat) (r : Rounding) (q : Rat) : IsFloat p (round p r q) := by
  unfold round
  split
  · exact isFloat_zero p
  · rename_i nonzero
    exact isFloat_roundAt r (abs_lt_of_lastPlace nonzero)

theorem isFloat_sqrt (p : Nat) (r : Rounding) (nonneg : 0 ≤ q) : IsFloat p (sqrt p r q) := by
  obtain ⟨m, e, small, root⟩ := exists_sqrt_eq nonneg r
  refine ⟨e, ⟨m, by exact_mod_cast root⟩, ?_⟩
  rw [root, abs_of_nonneg (by positivity)]
  exact mul_le_mul_of_nonneg_right (by exact_mod_cast small) (by positivity)

theorem IsFloat.multiple (h : IsFloat p q) (pos : 0 < p) (nonzero : q ≠ 0) :
    Multiple (lastPlace p q) q := by
  obtain ⟨e, multiple, small⟩ := h
  have low := (floorLog2_abs nonzero).1
  have reach : (2 : Rat) ^ p * 2 ^ e = 2 ^ (p + e) := by
    rw [zpow_add₀ two_ne_zero, zpow_natCast]
  rw [reach] at small
  have exponent : floorLog2 q.num.natAbs q.den ≤ p + e :=
    (zpow_le_zpow_iff_right₀ one_lt_two).1 (low.trans small)
  rcases exponent.lt_or_eq with _ | same
  · apply multiple.finer
    unfold lastPlace
    omega
  · -- the largest float on this grid is a power of two
    have power : |q| = 2 ^ (p + e) := le_antisymm small (same ▸ low)
    have fine : lastPlace p q ≤ p + e := by
      unfold lastPlace
      omega
    have multiple : Multiple (lastPlace p q) |q| := power ▸ Double.multiple_pow fine
    rcases abs_choice q with positive | negative
    · rwa [positive] at multiple
    · rw [negative] at multiple
      simpa using multiple.neg

theorem IsFloat.round_eq (h : IsFloat p q) (pos : 0 < p) : round p r q = q := by
  unfold round
  split
  · rename_i zero
    exact zero.symm
  · rename_i nonzero
    exact roundAt_eq_self (h.multiple pos nonzero)

theorem round_one (pos : 0 < p) (r : Rounding) : round p r 1 = 1 := by
  have one : IsFloat p 1 :=
    isFloat_intCast (abs_one.trans_le (one_le_pow₀ one_le_two))
  exact_mod_cast one.round_eq pos

/-! ### Integers -/

theorem IsFloat.floor (h : IsFloat p q) : IsFloat p q.floor := by
  obtain ⟨e, ⟨k, rfl⟩, small⟩ := h
  rcases le_total 0 e with whole | _
  · obtain ⟨n, rfl⟩ := Int.eq_ofNat_of_zero_le whole
    have integer : (k : Rat) * 2 ^ (n : Int) = (k * 2 ^ n : Int) := by
      push_cast
      rfl
    rw [integer, Rat.floor_intCast, ← integer]
    exact ⟨n, ⟨k, rfl⟩, small⟩
  · obtain ⟨n, rfl⟩ : ∃ n : Nat, e = -n := ⟨e.natAbs, by omega⟩
    have step : (0 : Rat) < 2 ^ (-(n : Int)) := by positivity
    rw [abs_mul, abs_of_pos step] at small
    have count : |k| ≤ 2 ^ p := by exact_mod_cast le_of_mul_le_mul_right small step
    have quotient : ((k : Rat) * 2 ^ (-(n : Int))).floor = k / (2 ^ n) := by
      rw [zpow_neg, ← div_eq_mul_inv]
      exact_mod_cast Rat.floor_intCast_div_natCast k (2 ^ n)
    rw [quotient]
    exact isFloat_intCast ((Int.abs_ediv_le_abs k _).trans count)

theorem IsFloat.ceil (h : IsFloat p q) : IsFloat p q.ceil := by
  rw [Rat.ceil_eq_neg_floor_neg]
  exact_mod_cast h.neg.floor.neg

end Enclosure.Binary
