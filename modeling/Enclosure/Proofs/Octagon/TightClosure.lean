import Enclosure.Proofs.Octagon.Points

/-!
# Tight closure over integers

Over integers, twice a node is even and a bound on it can be rounded down to an even number.
-/

namespace Enclosure

open ExtRat

/-! ### Rounded numbers -/

theorem den_eq_one_of_le_floor {q : Rat} (le : q ≤ ⌊q⌋) : q.den = 1 := by
  rw [le_antisymm le (Int.floor_le q), Rat.den_intCast]

theorem le_floor_of_den {p q : Rat} (integer : p.den = 1) (le : p ≤ q) : p ≤ ⌊q⌋ := by
  rw [← (Rat.den_eq_one_iff p).1 integer] at le ⊢
  exact_mod_cast Int.le_floor.2 le

theorem two_mul_floor_half_le {z : Int} {q : Rat} :
    (⌊(z : Rat) / 2⌋ : Rat) * 2 ≤ q ↔ (z : Rat) ≤ 2 * ⌊q / 2⌋ + 1 := by
  have half : ⌊(z : Rat) / 2⌋ = z / 2 := by exact_mod_cast Rat.floor_intCast_div_natCast z 2
  rw [← le_div_iff₀ two_pos, ← Int.le_floor]
  constructor
  · intro le
    exact_mod_cast (by omega)
  · intro le
    have whole : z ≤ 2 * ⌊q / 2⌋ + 1 := by exact_mod_cast le
    omega

namespace ExtRat

variable {u : ExtRat} {q : Rat}

theorem floor_of_integral (integral : ∀ p, u = fin p → p.den = 1) : u.floor = u := by
  cases u with
  | fin p =>
    have whole := (Rat.den_eq_one_iff p).1 (integral p rfl)
    change fin (⌊p⌋) = fin p
    rw [← whole, Int.floor_intCast]
  | _ => rfl

theorem twice_floor_half_le_fin (integral : ∀ p, u = fin p → p.den = 1) :
    u.half.floor.twice ≤ fin q ↔ u ≤ fin (2 * ⌊q / 2⌋ + 1) := by
  cases u with
  | negInf => exact iff_of_true (negInf_le _) (negInf_le _)
  | fin p =>
    have whole := (Rat.den_eq_one_iff p).1 (integral p rfl)
    have value : p * mkRat 1 2 = p.num / 2 := by
      rw [whole, show mkRat 1 2 = (1 / 2) by norm_num, mul_one_div]
    change fin ((⌊p * mkRat 1 2⌋) * 2) ≤ fin q ↔ _
    rw [value, fin_le_fin, fin_le_fin, two_mul_floor_half_le, whole]
  | posInf => exact iff_of_false not_posInf_le_fin not_posInf_le_fin

theorem floor_ne_negInf (h : u ≠ negInf) : u.floor ≠ negInf := by
  cases u with
  | negInf => exact absurd rfl h
  | _ => nofun

theorem twice_ne_negInf (h : u ≠ negInf) : u.twice ≠ negInf := by
  cases u with
  | negInf => exact absurd rfl h
  | fin q => nofun
  | posInf => decide

end ExtRat

namespace BoundMatrix

variable {m : BoundMatrix} {s : Space} {n a b : Nat} {p q : Rat}

def IsIntegral (m : BoundMatrix) (n : Nat) : Prop :=
  ∀ a < 2 * n, ∀ b < 2 * n, ∀ q, m.entry a b = .fin q → q.den = 1

theorem isIntegral_iff : m.IsIntegral n ↔
    ∀ a < 2 * n, ∀ b < 2 * n, (m.entry a b).floor = m.entry a b := by
  constructor
  · exact fun integral a left b right => floor_of_integral (integral a left b right)
  · intro same a left b right q finite
    have floor := same a left b right
    rw [finite] at floor
    exact den_eq_one_of_le_floor (fin.inj floor).ge

instance (m : BoundMatrix) (n : Nat) : Decidable (m.IsIntegral n) :=
  decidable_of_iff _ isIntegral_iff.symm

/-- No bound can be improved by a detour, by bounds on single dimensions, or by rounding: all
bounds are integers, and those on twice a node are even. -/
structure IsTight (m : BoundMatrix) (n : Nat) : Prop extends m.IsStronglyClosed n where
  integral : m.IsIntegral n
  even : ∀ a < 2 * n, ∀ q, m.entry a (opposite a) = .fin q → (q / 2).den = 1

/-! ### Rules for integer bounds -/

theorem IsIntegral.den_eq_one (integral : m.IsIntegral n) (square : m.IsSquare (2 * n))
    (finite : m.entry a b = .fin q) : q.den = 1 := by
  have inside := square.lt_of_bounds finite.le
  exact integral a inside.1 b inside.2 q finite

theorem IsIntegral.floor (integral : m.IsIntegral n) (square : m.IsSquare (2 * n))
    (h : m.Bounds a b q) : m.Bounds a b ⌊q⌋ := by
  unfold Bounds at h ⊢
  cases bound : m.entry a b with
  | negInf => exact negInf_le _
  | fin p =>
    rw [bound] at h
    exact fin_le_fin.2 (le_floor_of_den (integral.den_eq_one square bound) h)
  | posInf =>
    rw [bound] at h
    exact absurd h not_posInf_le_fin

theorem isIntegral_of_floor (floor : ∀ a b q, m.Bounds a b q → m.Bounds a b ⌊q⌋) :
    m.IsIntegral n := by
  intro a _ b _ q finite
  have le := floor a b q finite.le
  rw [Bounds, finite] at le
  exact den_eq_one_of_le_floor le

theorem IsTight.floor (tight : m.IsTight n) (h : m.Bounds a b q) : m.Bounds a b ⌊q⌋ :=
  tight.integral.floor tight.square h

theorem IsTight.floor_half (tight : m.IsTight n) (h : m.Bounds a (opposite a) q) :
    m.Bounds a (opposite a) (2 * ⌊q / 2⌋) := by
  have inside := (tight.square.lt_of_bounds h).1
  unfold Bounds at h ⊢
  cases bound : m.entry a (opposite a) with
  | negInf => exact negInf_le _
  | fin p =>
    rw [bound, fin_le_fin] at h
    have half := le_floor_of_den (tight.even a inside p bound) (by linarith : p / 2 ≤ q / 2)
    exact fin_le_fin.2 (by linarith)
  | posInf =>
    rw [bound] at h
    exact absurd h not_posInf_le_fin

theorem IsIntegral.shortest (integral : m.IsIntegral n) (regular : m.IsRegular n)
    (none : m.shortest.hasNegativeLoop = false) : m.shortest.IsIntegral n := by
  have closed := regular.shortest none
  refine isIntegral_of_floor fun a b q bound => ?_
  refine bounds_foldl_pivot (T := fun a b q => m.shortest.Bounds a b ⌊q⌋) regular.square ?_ ?_ bound
  · intro a b q old
    exact (integral.floor regular.square old).foldl_pivot regular.square
  · intro a b c p q left right
    refine (closed.trans left right).mono ?_
    exact_mod_cast Int.le_floor_add p q

/-! ### Rounding and strengthening -/

theorem entry_roundIntegers_ne_negInf (square : m.IsSquare n)
    (proper : ∀ a b, m.entry a b ≠ .negInf) (a b : Nat) :
    (m.roundIntegers s).entry a b ≠ .negInf := by
  rw [square.entry_roundIntegers]
  split
  · split
    · exact twice_ne_negInf (floor_ne_negInf (half_ne_negInf (proper a b)))
    · exact floor_ne_negInf (proper a b)
  · exact proper a b

def AtMost (m : BoundMatrix) (a : Nat) (k : Int) : Prop := m.Bounds a (opposite a) (2 * k + 1)

theorem AtMost.mono {k l : Int} (h : m.AtMost a k) (le : k ≤ l) : m.AtMost a l := by
  have cast : (k : Rat) ≤ l := by exact_mod_cast le
  exact Bounds.mono h (by linarith)

theorem AtMost.shift (closed : m.IsClosed n) {k z : Int} (bound : m.Bounds a b z)
    (h : m.AtMost b k) : m.AtMost a (z + k) := by
  have around := closed.trans (closed.trans bound h) (closed.mirror bound)
  apply around.mono
  push_cast
  linarith

theorem atMost_of_bounds (closed : m.IsClosed n) (integral : m.IsIntegral n)
    (h : m.Bounds a (opposite a) q) : m.AtMost a ⌊q / 2⌋ := by
  apply (integral.floor closed.square h).mono
  exact two_mul_floor_half_le.1 (by linarith [Int.floor_le ((⌊q⌋ : Rat) / 2), Int.floor_le q])

theorem isInt_nodeDim (integers : s.reals = 0) (inside : a < 2 * s.size) :
    s.isInt (nodeDim a) = true := by
  have dim := nodeDim_lt.2 inside
  simp only [Space.size, integers] at dim
  exact decide_eq_true dim

section Rounded

variable (closed : m.IsClosed s.size) (integral : m.IsIntegral s.size) (integers : s.reals = 0)
include closed integral integers

theorem bounds_roundIntegers : (m.roundIntegers s).Bounds a b q ↔
    if b = opposite a then m.AtMost a ⌊q / 2⌋ else m.Bounds a b q := by
  by_cases inside : a < 2 * s.size ∧ b < 2 * s.size
  · rw [Bounds, closed.square.entry_roundIntegers, isInt_nodeDim integers inside.1,
      isInt_nodeDim integers inside.2, Bool.and_self, if_pos rfl]
    have whole := integral a inside.1 b inside.2
    split
    · rename_i other
      subst other
      exact twice_floor_half_le_fin whole
    · rw [floor_of_integral whole]
      rfl
  · have outside : ¬ (m.roundIntegers s).Bounds a b q := fun h =>
      inside ((closed.square.mapEntries _).lt_of_bounds h)
    apply iff_of_false outside
    intro h
    apply inside
    split at h
    · rename_i other
      exact other ▸ closed.square.lt_of_bounds h
    · exact closed.square.lt_of_bounds h

theorem bounds_tight : (m.roundIntegers s).strengthen.Bounds a b q ↔
    m.Bounds a b q ∨ ∃ k l : Int, m.AtMost a k ∧ m.AtMost (opposite b) l ∧ (k + l : Rat) ≤ q := by
  have square : (m.roundIntegers s).IsSquare (2 * s.size) := closed.square.mapEntries _
  have single {a : Nat} {q : Rat} :
      (m.roundIntegers s).Bounds a (opposite a) q ↔ m.AtMost a ⌊q / 2⌋ := by
    rw [bounds_roundIntegers closed integral integers, if_pos rfl]
  rw [bounds_strengthen square]
  constructor
  · rintro (rounded | ⟨p, left, right⟩)
    · rw [bounds_roundIntegers closed integral integers] at rounded
      split at rounded
      · -- a rounded bound is the sum of two halves
        rename_i other
        subst other
        exact .inr ⟨⌊q / 2⌋, ⌊q / 2⌋, rounded, by rwa [opposite_opposite],
          by linarith [Int.floor_le (q / 2)]⟩
      · exact .inl rounded
    · have right' : (m.roundIntegers s).Bounds (opposite b) (opposite (opposite b))
          (2 * q - p) := by
        rwa [opposite_opposite]
      exact .inr ⟨⌊p / 2⌋, ⌊(2 * q - p) / 2⌋, single.1 left, single.1 right',
        by linarith [Int.floor_le (p / 2), Int.floor_le ((2 * q - p) / 2)]⟩
  · rintro (old | ⟨k, l, left, right, _⟩)
    · by_cases other : b = opposite a
      · subst other
        exact .inl (single.2 (atMost_of_bounds closed integral old))
      · apply Or.inl
        rwa [bounds_roundIntegers closed integral integers, if_neg other]
    · have half : l ≤ ⌊(2 * q - 2 * k) / 2⌋ := Int.le_floor.2 (by linarith)
      have bound := single.2 (right.mono half)
      rw [opposite_opposite] at bound
      exact .inr ⟨2 * k, single.2 (left.mono (by simp)), bound⟩

theorem atMost_of_bounds_tight (h : (m.roundIntegers s).strengthen.Bounds a (opposite a) q) :
    m.AtMost a ⌊q / 2⌋ := by
  rcases (bounds_tight closed integral integers).1 h with old | ⟨k, l, left, right, _⟩
  · exact atMost_of_bounds closed integral old
  · rw [opposite_opposite] at right
    rcases le_total (k : Rat) l with _ | _
    · exact left.mono (Int.le_floor.2 (by linarith))
    · exact right.mono (Int.le_floor.2 (by linarith))

theorem bounds_tight_of_atMost {k : Int} (h : m.AtMost a k) :
    (m.roundIntegers s).strengthen.Bounds a (opposite a) (2 * k) :=
  (bounds_tight closed integral integers).2 (.inr ⟨k, k, h, by rwa [opposite_opposite],
    by linarith⟩)

variable (consistent : (m.roundIntegers s).strengthen.isContradictory = false)
include consistent

theorem AtMost.add_nonneg {k l : Int} (left : m.AtMost a k) (right : m.AtMost (opposite a) l) :
    (0 : Rat) ≤ k + l := by
  have square : (m.roundIntegers s).strengthen.IsSquare (2 * s.size) :=
    (closed.square.mapEntries _).mapEntries _
  have inside := (closed.square.lt_of_bounds left).1
  have there := bounds_tight_of_atMost closed integral integers left
  have back := bounds_tight_of_atMost closed integral integers right
  rw [opposite_opposite] at back
  have sum : (0 : Rat) ≤ 2 * k + 2 * l := by
    apply fin_le_iff_forall.1 (square.isContradictory_eq_false.1 consistent a inside).2
    apply boundSum_le_fin.2
    exact ⟨2 * k, there, by rwa [add_sub_cancel_left]⟩
  linarith

theorem bounds_tight_trans {c : Nat} (left : (m.roundIntegers s).strengthen.Bounds a b p)
    (right : (m.roundIntegers s).strengthen.Bounds b c q) :
    (m.roundIntegers s).strengthen.Bounds a c (p + q) := by
  have floor {a b : Nat} {q : Rat} (h : m.Bounds a b q) := integral.floor closed.square h
  rw [bounds_tight closed integral integers] at left right ⊢
  rcases left with old | ⟨k, l, first, second, _⟩
  · rcases right with old' | ⟨k', l', first', second', _⟩
    · exact .inl (closed.trans old old')
    · refine .inr ⟨⌊p⌋ + k', l', first'.shift closed (floor old), second', ?_⟩
      push_cast
      linarith [Int.floor_le p]
  · rcases right with old' | ⟨_, l', first', second', _⟩
    · refine .inr ⟨k, ⌊q⌋ + l, first, second.shift closed (closed.mirror (floor old')), ?_⟩
      push_cast
      linarith [Int.floor_le q]
    · -- the two rounded bounds in the middle do not cross
      have middle := AtMost.add_nonneg closed integral integers consistent first' second
      exact .inr ⟨k, l', first, second', by linarith⟩

theorem isStronglyClosed_tight : (m.roundIntegers s).strengthen.IsStronglyClosed s.size := by
  have rounded : (m.roundIntegers s).IsSquare (2 * s.size) := closed.square.mapEntries _
  have square : (m.roundIntegers s).strengthen.IsSquare (2 * s.size) := rounded.mapEntries _
  have tight {a b : Nat} {q : Rat} : (m.roundIntegers s).strengthen.Bounds a b q ↔ _ :=
    bounds_tight closed integral integers
  apply isStronglyClosed_of_bounds square
  · exact entry_strengthen_ne_negInf rounded
      (entry_roundIntegers_ne_negInf closed.square closed.entry_ne_negInf)
  · intro a b q h
    rcases tight.1 h with old | ⟨k, l, left, right, sum⟩
    · exact tight.2 (.inl (closed.mirror old))
    · exact tight.2 (.inr ⟨l, k, right, by rwa [opposite_opposite], by rwa [add_comm]⟩)
  · intro a inside
    exact tight.2 (.inl ((closed.bounds_self inside).2 (le_refl 0)))
  · intro a q h
    rcases tight.1 h with old | ⟨k, l, left, right, sum⟩
    · exact closed.nonneg old
    · exact (AtMost.add_nonneg closed integral integers consistent left right).trans sum
  · intro a b c p q left right
    exact bounds_tight_trans closed integral integers consistent left right
  · intro a b p q left right
    have first := atMost_of_bounds_tight closed integral integers left
    have second := atMost_of_bounds_tight closed integral integers (by rwa [opposite_opposite])
    exact tight.2 (.inr ⟨_, _, first, second,
      by linarith [Int.floor_le (p / 2), Int.floor_le (q / 2)]⟩)

theorem IsClosed.isTight : (m.roundIntegers s).strengthen.IsTight s.size := by
  have tight {a b : Nat} {q : Rat} : (m.roundIntegers s).strengthen.Bounds a b q ↔ _ :=
    bounds_tight closed integral integers
  refine ⟨isStronglyClosed_tight closed integral integers consistent,
    isIntegral_of_floor fun a b q h => ?_, fun a _ q finite => ?_⟩
  · rcases tight.1 h with old | ⟨k, l, left, right, sum⟩
    · exact tight.2 (.inl (integral.floor closed.square old))
    · have whole : k + l ≤ ⌊q⌋ := Int.le_floor.2 (by exact_mod_cast sum)
      exact tight.2 (.inr ⟨k, l, left, right, by exact_mod_cast whole⟩)
  · have half := atMost_of_bounds_tight closed integral integers finite.le
    have lower := bounds_tight_of_atMost closed integral integers half
    rw [Bounds, finite, fin_le_fin] at lower
    exact den_eq_one_of_le_floor (by linarith)

end Rounded

theorem IsRegular.isTight_close? (regular : m.IsRegular s.size) (integral : m.IsIntegral s.size)
    (integers : s.reals = 0) {m' : BoundMatrix} (closed : m.close? s = some m') :
    m'.IsTight s.size := by
  obtain ⟨loop, consistent, rfl⟩ := close?_eq_some closed
  have tight := (regular.shortest loop).isTight (integral.shortest regular loop) integers consistent
  rwa [tight.square.zeroDiagonal_eq tight.diagonal]

end BoundMatrix

end Enclosure
