import Enclosure.ExtRat
import Mathlib.Algebra.Order.Field.Basic
import Mathlib.Algebra.Order.Field.Rat

/-!
# The order and the arithmetic of extended rationals

Extended rationals are linearly ordered.
-/

namespace Enclosure.ExtRat

variable {x y z : ExtRat} {p q : Rat}

@[simp]
theorem fin_le_fin : fin p ≤ fin q ↔ p ≤ q := .rfl

@[simp]
theorem negInf_le (x : ExtRat) : negInf ≤ x := by
  cases x <;> exact trivial

@[simp]
theorem le_posInf (x : ExtRat) : x ≤ posInf := by
  cases x <;> exact trivial

@[simp]
theorem not_fin_le_negInf : ¬ fin q ≤ negInf := id

@[simp]
theorem not_posInf_le_fin : ¬ posInf ≤ fin q := id

@[simp]
theorem not_posInf_le_negInf : ¬ posInf ≤ negInf := id

instance : LinearOrder ExtRat where
  le_refl x := by cases x <;> simp
  le_trans x y z h h' := by
    cases x <;> cases y <;> cases z <;> simp_all
    exact h.trans h'
  le_antisymm x y h h' := by
    cases x <;> cases y <;> simp_all
    exact le_antisymm h h'
  le_total x y := by
    cases x <;> cases y <;> simp
    exact le_total _ _
  lt_iff_le_not_ge x y := by
    change ¬ y ≤ x ↔ _
    cases x <;> cases y <;> simp
    exact le_of_lt
  toDecidableLE := decidableLe
  toDecidableEq := inferInstance
  toDecidableLT := decidableLt

@[simp]
theorem fin_lt_fin : fin p < fin q ↔ p < q := by
  rw [← not_le, ← not_le, fin_le_fin]

theorem exists_eq_fin (lower : fin p ≤ x) (upper : x ≤ fin q) : ∃ z, x = fin z := by
  cases x with
  | fin z => exact ⟨z, rfl⟩
  | negInf => exact absurd lower not_fin_le_negInf
  | posInf => exact absurd upper not_posInf_le_fin

theorem fin_max (p q : Rat) : fin (Max.max p q) = Max.max (fin p) (fin q) :=
  Monotone.map_max fun _ _ => fin_le_fin.2

theorem fin_min (p q : Rat) : fin (Min.min p q) = Min.min (fin p) (fin q) :=
  Monotone.map_min fun _ _ => fin_le_fin.2

theorem min_eq (x y : ExtRat) : x.min y = Min.min x y := by
  unfold ExtRat.min
  split
  · rename_i less
    exact (min_eq_right less.le).symm
  · rename_i least
    exact (min_eq_left (not_lt.1 least)).symm

theorem max_eq (x y : ExtRat) : x.max y = Max.max x y := by
  unfold ExtRat.max
  split
  · rename_i less
    exact (max_eq_right less.le).symm
  · rename_i greatest
    exact (max_eq_left (not_lt.1 greatest)).symm

/-! ### Signs -/

theorem sign_nonneg : 0 ≤ x.sign ↔ fin 0 ≤ x := by
  cases x with
  | fin q =>
    rcases lt_trichotomy q 0 with negative | rfl | positive
    · simp [sign, negative, negative.not_gt]
    · simp [sign]
    · simp [sign, positive, positive.le]
  | _ => simp [sign]

theorem sign_nonpos : x.sign ≤ 0 ↔ x ≤ fin 0 := by
  cases x with
  | fin q =>
    rcases lt_trichotomy q 0 with negative | rfl | positive
    · simp [sign, negative, negative.not_gt, negative.le]
    · simp [sign]
    · simp [sign, positive]
  | _ => simp [sign]

theorem isZero_iff : x.isZero = true ↔ x = fin 0 := by
  rw [isZero, decide_eq_true_eq, le_antisymm_iff, le_antisymm_iff, sign_nonneg, sign_nonpos]

/-! ### Sums -/

instance : Add ExtRat := ⟨fun x y => (x.add? y).getD negInf⟩

theorem add_eq (x y : ExtRat) : x + y = (x.add? y).getD negInf := rfl

theorem fin_add_fin (p q : Rat) : fin p + fin q = fin (p + q) := rfl

instance : AddCommSemigroup ExtRat where
  add_assoc x y z := by
    cases x <;> cases y <;> cases z <;> simp [add_eq, add?, add_assoc]
  add_comm x y := by
    cases x <;> cases y <;> simp [add_eq, add?, add_comm]

@[simp]
theorem fin_zero_add (x : ExtRat) : fin 0 + x = x := by
  cases x <;> simp [add_eq, add?]

theorem add_of_add? (h : x.add? y = some z) : x + y = z := by
  rw [add_eq, h, Option.getD_some]

instance : AddLeftMono ExtRat where
  elim x y z h := by
    cases x <;> cases y <;> cases z <;> simp_all [add_eq, add?]

theorem le_add_fin : x ≤ y + fin q ↔ x + fin (-q) ≤ y := by
  cases x <;> cases y <;> simp [add_eq, add?]

theorem add?_of_le (h : x ≤ fin p ∧ y ≤ fin q ∨ fin p ≤ x ∧ fin q ≤ y) :
    x.add? y = some (x + y) := by
  cases x <;> cases y <;> simp_all [add_eq, add?]

theorem add_fin_le : x + fin q ≤ y ↔ x ≤ y + fin (-q) := by
  rw [le_add_fin, neg_neg]

/-! ### Products -/

theorem mul_comm (x y : ExtRat) : x.mul y = y.mul x := by
  cases x <;> cases y <;> simp [mul, Int.mul_comm]
  exact Rat.mul_comm _ _

theorem sign_le_sign (h : x ≤ y) : x.sign ≤ y.sign := by
  cases x <;> cases y <;> simp_all [sign] <;> grind

theorem infinity_le_infinity {m n : Int} (h : m ≤ n) : infinity m ≤ infinity n := by
  unfold infinity
  grind [le_posInf, negInf_le]

theorem zero_mul (x : ExtRat) : (fin 0).mul x = fin 0 := by
  cases x <;> simp [mul, sign, infinity, zero]

theorem posInf_mul (x : ExtRat) : posInf.mul x = infinity x.sign := by
  cases x <;> simp [mul, sign]

theorem pos_mul (pos : 0 < q) : (fin q).mul x = match x with
    | negInf => negInf
    | fin p => fin (q * p) | posInf => posInf := by
  cases x <;> simp [mul, sign, infinity, pos]

theorem mul_le_mul_left (nonneg : fin 0 ≤ x) (h : y ≤ z) : x.mul y ≤ x.mul z := by
  cases x with
  | negInf => exact absurd nonneg not_fin_le_negInf
  | fin q =>
    rcases (fin_le_fin.1 nonneg).eq_or_lt with rfl | pos
    · rw [zero_mul, zero_mul]
    · rw [pos_mul pos, pos_mul pos]
      cases y <;> cases z <;> simp_all
  | posInf =>
    rw [posInf_mul, posInf_mul]
    exact infinity_le_infinity (sign_le_sign h)

theorem mul_le_mul {x' y' : ExtRat} (hx : x ≤ x') (hy : y ≤ y') (nonneg : fin 0 ≤ y)
    (nonneg' : fin 0 ≤ x') : x.mul y ≤ x'.mul y' := by
  refine le_trans ?_ (mul_le_mul_left nonneg' hy)
  rw [mul_comm x, mul_comm x']
  exact mul_le_mul_left nonneg hx

@[simp]
theorem neg_neg (x : ExtRat) : x.neg.neg = x := by
  cases x <;> simp [neg]

theorem neg_le_neg (h : x ≤ y) : y.neg ≤ x.neg := by
  cases x <;> cases y <;> simp_all [neg]

theorem neg_le_fin : x.neg ≤ fin q ↔ fin (-q) ≤ x := by
  cases x <;> simp [neg, neg_le]

theorem fin_le_neg : fin q ≤ x.neg ↔ x ≤ fin (-q) := by
  cases x <;> simp [neg, le_neg]

theorem neg_mul (x y : ExtRat) : x.neg.mul y = (x.mul y).neg := by
  cases x <;> cases y <;> simp [neg, mul, sign, infinity] <;> grind [zero]

theorem mul_le_mul_left_of_nonpos (nonpos : x ≤ fin 0) (h : y ≤ z) : x.mul z ≤ x.mul y := by
  have flipped : x.neg.mul y ≤ x.neg.mul z :=
    mul_le_mul_left (by simpa [neg] using neg_le_neg nonpos) h
  rw [neg_mul, neg_mul] at flipped
  simpa using neg_le_neg flipped

theorem mul_between {l u lo hi : ExtRat} (low : l ≤ x.mul lo ∧ x.mul lo ≤ u)
    (high : l ≤ x.mul hi ∧ x.mul hi ≤ u) (between : lo ≤ y ∧ y ≤ hi) :
    l ≤ x.mul y ∧ x.mul y ≤ u := by
  rcases le_total (fin 0) x with nonneg | nonpos
  · exact ⟨low.1.trans (mul_le_mul_left nonneg between.1),
      (mul_le_mul_left nonneg between.2).trans high.2⟩
  · exact ⟨high.1.trans (mul_le_mul_left_of_nonpos nonpos between.2),
      (mul_le_mul_left_of_nonpos nonpos between.1).trans low.2⟩

theorem mul_fin_eq_add (x : ExtRat) (m t : Rat) :
    x.mul (fin t) = fin (m * t) + (x + fin (-m)).mul (fin t) := by
  cases x with
  | fin q =>
    change fin (q * t) = fin (m * t + (q + -m) * t)
    rw [← sub_eq_add_neg, sub_mul, add_sub_cancel]
  | _ =>
    rcases lt_trichotomy t 0 with negative | rfl | positive
    · simp [add_eq, add?, mul, sign, infinity, negative, negative.not_gt]
    · simp [add_eq, add?, mul, sign, infinity, zero]
    · simp [add_eq, add?, mul, sign, infinity, positive]

theorem exists_of_add_eq_fin {v : Rat} (h : x + y = fin v) :
    ∃ p q, x = fin p ∧ y = fin q ∧ p + q = v := by
  cases x with
  | fin p =>
    cases y with
    | fin q => exact ⟨p, q, rfl, rfl, fin.inj h⟩
    | _ => cases h
  | _ => cases y <;> cases h

/-! ### Rationals above a value -/

theorem le_iff_forall_fin : x ≤ y ↔ ∀ q, y ≤ fin q → x ≤ fin q := by
  constructor
  · exact fun h q le => h.trans le
  · intro h
    cases y with
    | negInf =>
      cases x with
      | negInf => exact le_refl _
      | fin p => exact absurd (h (p - 1) (negInf_le _)) (by simp)
      | posInf => exact absurd (h 0 (negInf_le _)) not_posInf_le_fin
    | fin q => exact h q (le_refl _)
    | posInf => exact le_posInf x

theorem fin_le_iff_forall : fin p ≤ y ↔ ∀ q, y ≤ fin q → p ≤ q := by
  rw [le_iff_forall_fin]
  exact forall₂_congr fun q _ => fin_le_fin

theorem exists_fin_between (h : x < y) : ∃ q, x < fin q ∧ fin q < y := by
  simp only [← not_le] at h ⊢
  cases x with
  | negInf =>
    cases y with
    | negInf => exact absurd (le_refl _) h
    | fin q => exact ⟨q - 1, by simp⟩
    | posInf => exact ⟨0, by simp⟩
  | fin p =>
    cases y with
    | negInf => exact absurd (negInf_le _) h
    | fin q =>
      obtain ⟨r, above, below⟩ := exists_between (not_le.1 (mt fin_le_fin.2 h))
      exact ⟨r, by simpa using above, by simpa using below⟩
    | posInf => exact ⟨p + 1, by simp⟩
  | posInf => exact absurd (le_posInf y) h

/-! ### Integers -/

theorem floor_le (x : ExtRat) : x.floor ≤ x := by
  cases x with
  | fin p => exact Rat.floor_le p
  | _ => exact le_refl _

theorem le_ceil (x : ExtRat) : x ≤ x.ceil := by
  cases x with
  | fin p => exact Rat.le_ceil
  | _ => exact le_refl _

theorem fin_le_floor (integer : q.den = 1) : fin q ≤ x.floor ↔ fin q ≤ x := by
  cases x with
  | fin p =>
    have whole : q.num = q := (Rat.den_eq_one_iff q).1 integer
    change q ≤ p.floor ↔ q ≤ p
    rw [← whole, Rat.intCast_le_intCast, Rat.le_floor_iff]
  | negInf => rfl
  | posInf => rfl

theorem ceil_le_fin (integer : q.den = 1) : x.ceil ≤ fin q ↔ x ≤ fin q := by
  cases x with
  | fin p =>
    have whole : q.num = q := (Rat.den_eq_one_iff q).1 integer
    change p.ceil ≤ q ↔ p ≤ q
    rw [← whole, Rat.intCast_le_intCast, Rat.ceil_le_iff]
  | negInf => rfl
  | posInf => rfl

theorem ceil_le_fin_floor (h : x.ceil ≤ fin q) : x.ceil ≤ fin q.floor := by
  cases x with
  | fin p => exact fin_le_fin.2 (Rat.intCast_le_intCast.2 (Rat.le_floor_iff.2 (fin_le_fin.1 h)))
  | negInf => exact negInf_le _
  | posInf => exact absurd h not_posInf_le_fin

theorem fin_ceil_le_floor (h : fin q ≤ x.floor) : fin q.ceil ≤ x.floor := by
  cases x with
  | fin p => exact fin_le_fin.2 (Rat.intCast_le_intCast.2 (Rat.ceil_le_iff.2 (fin_le_fin.1 h)))
  | negInf => exact absurd h not_fin_le_negInf
  | posInf => exact le_posInf _

end Enclosure.ExtRat
