import Enclosure.Proofs.Doubles

/-!
# Results of doubles

Whatever the direction, the neighbours of a double, rounded rationals, and sums, products and
quotients of doubles are doubles again.
-/

namespace Enclosure.Double

open Binary

variable {a b q : Rat} {r : Rounding} {x y z : ExtRat}

/-! ### Rounding to nearest -/

theorem isDouble_infinity (sign : Int) : IsDouble (.infinity sign) := by
  unfold ExtRat.infinity
  split
  · exact trivial
  split
  · exact trivial
  · exact isDouble_zero

theorem isDouble_bounded (h : OnGrid q) : IsDouble (bounded q) := by
  unfold bounded
  split
  · exact trivial
  split
  · exact trivial
  · rename_i below above
    exact ⟨h, abs_lt.2 ⟨not_le.1 above, not_le.1 below⟩⟩

theorem isDouble_nearest (q : Rat) : IsDouble (nearest q) :=
  nearest_eq q ▸ isDouble_bounded (onGrid_nearestGrid q)

/-! ### Neighbours -/

theorem OnGrid.last_place (h : OnGrid q) (nonzero : q ≠ 0) :
    -1074 ≤ unitExponent q ∧ Multiple (unitExponent q) q ∧
      |q| ≤ (2 ^ 53 - 1) * 2 ^ unitExponent q := by
  obtain ⟨low, high, -⟩ := unitExponent_spec nonzero
  have multiple : Multiple (unitExponent q) q := by
    have rounded := (nearestGrid_spec nonzero).1
    rwa [nearestGrid_eq h] at rounded
  rw [zpow_add₀ two_ne_zero, mul_comm] at high
  have under : |q| < ((2 ^ 53 - 1 : Nat) + 1 : Rat) * 2 ^ unitExponent q := by
    norm_num at high ⊢
    exact high
  have bits := multiple.abs_le_of_lt under
  norm_num at bits ⊢
  exact ⟨low, multiple, bits⟩

theorem isDouble_raise (h : OnGrid q) : IsDouble (raise q) := by
  unfold raise
  split
  · rw [pow2_eq]
    refine ⟨onGrid_pow (le_refl _), ?_⟩
    rw [abs_of_pos (by positivity), pow2_eq]
    exact zpow_lt_zpow_right₀ one_lt_two (by omega)
  · rename_i nonzero
    obtain ⟨low, multiple, bits⟩ := h.last_place nonzero
    apply isDouble_bounded
    refine ⟨_, low, multiple.add ?_, ?_⟩
    · exact pow2_eq (unitExponent q) ▸ multiple_pow (le_refl _)
    · -- one more step than the 53 bits before it
      have step : |pow2 (unitExponent q)| = 2 ^ unitExponent q := by
        rw [abs_of_pos (pow2_pos _), pow2_eq]
      linarith [abs_add_le q (pow2 (unitExponent q))]

private theorem onGrid_sub_pow {e : Int} (low : -1074 ≤ e) (multiple : Multiple e q)
    (positive : 0 < q) (bits : q ≤ 2 ^ 53 * 2 ^ e) :
    OnGrid (q - pow2 e) ∧ 0 ≤ q - pow2 e ∧ q - pow2 e ≤ q := by
  have least := multiple.le_of_pos positive
  rw [pow2_eq]
  refine ⟨⟨e, low, multiple.sub (multiple_pow (le_refl e)), ?_⟩, by linarith, by linarith⟩
  rw [abs_of_nonneg (by linarith)]
  linarith

theorem lower_spec (h : OnGrid q) (positive : 0 < q) :
    OnGrid (lower q) ∧ 0 ≤ lower q ∧ lower q ≤ q := by
  obtain ⟨low, multiple, bits⟩ := h.last_place positive.ne'
  rw [abs_of_pos positive] at bits
  unfold lower
  dsimp only
  split
  · -- below a power of two the places are half as far apart
    rename_i power
    apply onGrid_sub_pow (by omega) (multiple.finer (by omega)) positive
    apply le_of_eq
    calc q = pow2 (unitExponent q + 52) := power.1
      _ = 2 ^ (53 + (unitExponent q - 1)) := by rw [pow2_eq]; congr 1; ring
      _ = 2 ^ 53 * 2 ^ (unitExponent q - 1) := by rw [zpow_add₀ two_ne_zero]; norm_num
  · exact onGrid_sub_pow low multiple positive (by linarith)

theorem isDouble_maxFinite : IsDouble (.fin maxFinite) := by
  have kept : nearest maxFinite = .fin maxFinite := by decide +kernel
  exact kept ▸ isDouble_nearest maxFinite

theorem IsDouble.above (h : IsDouble x) : IsDouble (above x) := by
  cases x with
  | posInf => exact trivial
  | negInf => exact isDouble_maxFinite.neg
  | fin q =>
    change IsDouble (if 0 ≤ q then raise q else .fin (-lower (-q)))
    split
    · exact isDouble_raise h.1
    · obtain ⟨grid, nonneg, le⟩ := lower_spec h.1.neg (by linarith)
      have lowered : IsDouble (.fin (lower (-q))) := by
        refine ⟨grid, ?_⟩
        rw [abs_of_nonneg nonneg]
        exact (le.trans (neg_le_abs q)).trans_lt h.2
      exact lowered.neg

theorem IsDouble.below (h : IsDouble x) : IsDouble (below x) := h.neg.above.neg

/-! ### Directed rounding -/

theorem IsDouble.adjust (h : IsDouble x) (side : Ordering) : IsDouble (adjust r x side) := by
  unfold Double.adjust
  split
  · exact h.above
  · exact h.below
  · split
    · exact h.above
    · exact h
  · split
    · exact h.below
    · exact h
  · split
    · exact h.above
    · exact h
  · split
    · exact h.below
    · exact h
  · exact h

theorem IsDouble.overflow (h : IsDouble x) : IsDouble (overflow r x) := by
  unfold Double.overflow
  split
  · exact isDouble_maxFinite
  · exact isDouble_maxFinite
  · exact isDouble_maxFinite.neg
  · exact isDouble_maxFinite.neg
  · exact h

theorem isDouble_roundFinite (r : Rounding) (q : Rat) : IsDouble (roundFinite r q) := by
  have near := isDouble_nearest (Binary.round 53 r q)
  unfold roundFinite
  split
  · rename_i found
    exact (found ▸ near).adjust _
  · exact near.overflow

theorem isDouble_round (r : Rounding) (x : ExtRat) : IsDouble (round r x) := by
  cases x with
  | fin q => exact isDouble_roundFinite r q
  | _ => exact trivial

/-! ### Arithmetic -/

theorem isDouble_add? (hx : IsDouble x) (hy : IsDouble y) (h : add? r x y = some z) :
    IsDouble z := by
  cases x with
  | fin a =>
    cases y with
    | fin b =>
      have near := isDouble_nearest (a + b)
      unfold add? at h
      dsimp only at h
      split at h
      · rename_i found
        exact Option.some.inj h ▸ (found ▸ near).adjust _
      · exact Option.some.inj h ▸ near.overflow
    | _ => exact Option.some.inj h ▸ hy
  | _ =>
    cases y <;> simp_all [add?, ExtRat.add?]

theorem isDouble_mul (r : Rounding) (x y : ExtRat) : IsDouble (mul r x y) := by
  unfold mul
  split
  · rename_i a b
    have near := isDouble_nearest (a * b)
    split
    · exact isDouble_zero
    split
    · rename_i found
      split
      · exact isDouble_roundFinite _ _
      · exact (found ▸ near).adjust _
    · exact near.overflow
  · rename_i notFinite
    unfold ExtRat.mul
    split
    · exact (notFinite _ _ rfl rfl).elim
    · exact isDouble_infinity _

theorem isDouble_div? (h : div? r x y = some z) : IsDouble z := by
  unfold div? at h
  split at h
  · rename_i a b
    have near := isDouble_nearest (a / b)
    split at h
    · obtain ⟨q, -, rfl⟩ := Option.map_eq_some_iff.1 h
      exact isDouble_round r q
    split at h
    · rename_i found
      split at h
      · exact Option.some.inj h ▸ isDouble_roundFinite _ _
      · exact Option.some.inj h ▸ (found ▸ near).adjust _
    · exact Option.some.inj h ▸ near.overflow
  · obtain ⟨q, -, rfl⟩ := Option.map_eq_some_iff.1 h
    exact isDouble_round r q

end Enclosure.Double
