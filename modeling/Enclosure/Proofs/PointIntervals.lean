import Enclosure.Proofs.Quotients
import Enclosure.Proofs.RoundedIntervals

/-!
# Arithmetic with single numbers

An interval times or over a number, and an interval plus a number, has no other members than the
products, quotients and sums of its members, if the bounds of the result need no rounding.
-/

namespace Enclosure

open Number

open ExtRat (fin fin_le_fin inv)

/-! ### Extended rationals over a rational -/

namespace ExtRat

variable {t : ExtRat} {p q : Rat}

theorem div?_fin (t : ExtRat) (nonzero : p ≠ 0) : t.div? (fin p) = some (t.mul (fin p).inv) := by
  have some : ∃ z, t.div? (fin p) = some z := by cases t <;> simp [div?, nonzero]
  obtain ⟨z, found⟩ := some
  rw [found, eq_mul_inv_of_div? (mt fin.inj nonzero) found]

theorem mul_inv_iff (pos : 0 < p) : (t.mul (fin p).inv ≤ fin q ↔ t ≤ fin (p * q)) ∧
    (fin q ≤ t.mul (fin p).inv ↔ fin (p * q) ≤ t) := by
  cases t with
  | fin t =>
    change (fin (t * p⁻¹) ≤ fin q ↔ _) ∧ (fin q ≤ fin (t * p⁻¹) ↔ _)
    simp only [fin_le_fin, ← div_eq_mul_inv, div_le_iff₀' pos, le_div_iff₀' pos, and_self]
  | negInf => simp [mul, inv, sign, infinity, pos]
  | posInf => simp [mul, inv, sign, infinity, pos]

theorem mul_inv_iff_of_neg (negative : p < 0) : (t.mul (fin p).inv ≤ fin q ↔ fin (p * q) ≤ t) ∧
    (fin q ≤ t.mul (fin p).inv ↔ t ≤ fin (p * q)) := by
  cases t with
  | fin t =>
    change (fin (t * p⁻¹) ≤ fin q ↔ _) ∧ (fin q ≤ fin (t * p⁻¹) ↔ _)
    simp only [fin_le_fin, ← div_eq_mul_inv, div_le_iff_of_neg' negative,
      le_div_iff_of_neg' negative, and_self]
  | negInf => simp [mul, inv, sign, infinity, negative, negative.not_gt]
  | posInf => simp [mul, inv, sign, infinity, negative, negative.not_gt]

theorem between_mul_inv {lo hi : ExtRat} (order : lo ≤ hi) (nonzero : p ≠ 0) :
    Min.min (lo.mul (fin p).inv) (hi.mul (fin p).inv) ≤ fin q ∧
        fin q ≤ Max.max (lo.mul (fin p).inv) (hi.mul (fin p).inv) ↔
      lo ≤ fin (p * q) ∧ fin (p * q) ≤ hi := by
  rw [min_le_iff, le_max_iff]
  rcases lt_or_gt_of_ne nonzero with negative | positive
  · simp only [mul_inv_iff_of_neg negative]
    rw [or_iff_right_of_imp (·.trans order), or_iff_left_of_imp order.trans, and_comm]
  · simp only [mul_inv_iff positive]
    rw [or_iff_left_of_imp order.trans, or_iff_right_of_imp (·.trans order)]

theorem fin_add_le : fin p + t ≤ fin q ↔ t ≤ fin (q - p) := by
  cases t with
  | fin t => rw [fin_add_fin, fin_le_fin, fin_le_fin, le_sub_iff_add_le']
  | negInf => simp [add_eq, add?]
  | posInf => simp [add_eq, add?]

theorem le_fin_add : fin q ≤ fin p + t ↔ fin (q - p) ≤ t := by
  cases t with
  | fin t => rw [fin_add_fin, fin_le_fin, fin_le_fin, sub_le_iff_le_add']
  | negInf => simp [add_eq, add?]
  | posInf => simp [add_eq, add?]

end ExtRat

/-! ### Intervals -/

theorem Number.value_add_of_fin {x y : Number} {p : Rat} (hx : x.kind = .rational)
    (value : x.value = .fin p) (r : Rounding) : (x.add r y).value = .fin p + y.value := by
  refine value_add hx ?_ r
  rw [value]
  cases y.value <;> rfl

theorem Number.value_mul_of_rational {x y : Number} (hx : x.kind = .rational) (r : Rounding) :
    (x.mul r y).value = x.value.mul y.value := by
  rw [mul_eq (by simp [hx]), hx]
  exact Kind.isOutward_rational.round_eq trivial r

namespace Interval

variable {a b i : Interval} {k : Kind} {p p' q : Rat}

theorem IsOf.convert_eq (h : i.IsOf k) : i.convert k = i := if_pos h.kind

/-- Both bounds are the given number. -/
structure IsAt (i : Interval) (p : Rat) : Prop where
  lo : i.lo.value = .fin p
  hi : i.hi.value = .fin p

theorem IsAt.has_iff (h : i.IsAt p) : i.Has q ↔ q = p := by
  rw [Has, Spans, h.lo, h.hi, fin_le_fin, fin_le_fin, le_antisymm_iff, and_comm]

theorem IsAt.isEmpty (h : i.IsAt p) : i.isEmpty = false := (h.has_iff.2 rfl).not_isEmpty

theorem IsAt.containsZero (h : i.IsAt p) (nonzero : p ≠ 0) : i.containsZero = false := by
  rw [Bool.eq_false_iff, ne_eq, containsZero_iff, h.has_iff]
  exact nonzero.symm

theorem has_meet (outward : k.IsOutward) (ha : a.Fits k) (hb : b.Fits k) :
    (a.meet b).Has q ↔ a.Has q ∧ b.Has q := by
  refine ⟨fun h => ?_, fun h => h.1.meet h.2⟩
  unfold meet canonical at h
  split at h
  · rw [Interval.kind, (of_max ha.lo hb.lo).kind] at h
    exact absurd h.not_isEmpty (by simp [isEmpty_bottom outward])
  · obtain ⟨lower, upper⟩ := h
    rw [value_max, max_le_iff] at lower
    rw [value_min, le_min_iff] at upper
    exact ⟨⟨lower.1, upper.1⟩, lower.2, upper.2⟩

theorem includeQuotient_isAt {x y : Number} (outward : k.IsOutward) (hx : x.kind = k)
    (hy : y.kind = k) (value : y.value = .fin p) (nonzero : p ≠ 0)
    (exact : k.Represents (x.value.mul (fin p).inv)) :
    ∃ j, includeQuotient i x y = some j ∧
      j.lo.value = min i.lo.value (x.value.mul (fin p).inv) ∧
      j.hi.value = max i.hi.value (x.value.mul (fin p).inv) := by
  have rounded (r : Rounding) : (Number.ofExt k r (x.value.mul (fin p).inv)).value =
      x.value.mul (fin p).inv := outward.round_eq exact r
  have quotient (r : Rounding) : x.div? r y = some (.ofExt k r (x.value.mul (fin p).inv)) := by
    rw [div?_eq (hx ▸ outward.directed), value, ExtRat.div?_fin _ nonzero, hx, hy, Kind.common_self]
    rfl
  refine ⟨_, by rw [includeQuotient, quotient, quotient], ?_, ?_⟩
  · rw [value_min, rounded]
  · rw [value_max, rounded]

theorem div_bounds (outward : k.IsOutward) (ha : a.IsOf k) (hb : b.IsOf k)
    (full : a.isEmpty = false) (full' : b.isEmpty = false) (apart : b.containsZero = false)
    (low : b.lo.value = .fin p) (high : b.hi.value = .fin p')
    (exact : ∀ x ∈ [a.lo, a.hi], ∀ y ∈ [p, p'], k.Represents (x.value.mul (fin y).inv)) :
    (a.div b).lo.value = min (min (min (a.lo.value.mul (fin p).inv)
        (a.lo.value.mul (fin p').inv)) (a.hi.value.mul (fin p).inv))
        (a.hi.value.mul (fin p').inv) ∧
      (a.div b).hi.value = max (max (max (a.lo.value.mul (fin p).inv)
        (a.lo.value.mul (fin p').inv)) (a.hi.value.mul (fin p).inv))
        (a.hi.value.mul (fin p').inv) := by
  have notHas : ¬ b.Has 0 := fun has => Bool.eq_false_iff.1 apart (containsZero_iff.2 has)
  have notZero : b.isZero = false := Bool.eq_false_iff.2 fun zero =>
    notHas ((has_of_isZero zero).2 rfl)
  have order : p ≤ p' := by
    have le := isEmpty_eq_false_iff.1 full'
    rwa [low, high] at le
  have nonzero : p ≠ 0 ∧ p' ≠ 0 := by
    rw [Has, Spans, low, high] at notHas
    exact ⟨fun zero => notHas ⟨zero.le, zero ▸ order⟩, fun zero => notHas ⟨zero ▸ order, zero.ge⟩⟩
  obtain ⟨j₁, run₁, lo₁, hi₁⟩ := includeQuotient_isAt (i := ⟨.infinity a.kind 1,
    .infinity a.kind (-1)⟩) outward ha.kind hb.kind low nonzero.1 (exact _ (by simp) _ (by simp))
  obtain ⟨j₂, run₂, lo₂, hi₂⟩ := includeQuotient_isAt (i := j₁) outward ha.kind hb.hiKind high
    nonzero.2 (exact _ (by simp) _ (by simp))
  obtain ⟨j₃, run₃, lo₃, hi₃⟩ := includeQuotient_isAt (i := j₂) outward ha.hiKind hb.kind low
    nonzero.1 (exact _ (by simp) _ (by simp))
  obtain ⟨j₄, run₄, lo₄, hi₄⟩ := includeQuotient_isAt (i := j₃) outward ha.hiKind hb.hiKind high
    nonzero.2 (exact _ (by simp) _ (by simp))
  have quotient : a.div b = j₄ := by
    unfold Interval.div
    simp only [full, full', notZero, apart, Bool.or_self, Bool.false_eq_true, if_false,
      List.foldlM_cons, List.foldlM_nil, run₁, run₂, run₃, run₄, Option.bind_eq_bind,
      Option.bind_some, Option.pure_def, Option.getD_some]
  -- the infinities at the start are beyond the first quotient
  have least : j₁.lo.value = a.lo.value.mul (fin p).inv :=
    lo₁.trans (min_eq_right (ExtRat.le_posInf _))
  have greatest : j₁.hi.value = a.lo.value.mul (fin p).inv :=
    hi₁.trans (max_eq_right (ExtRat.negInf_le _))
  rw [quotient, lo₄, lo₃, lo₂, least, hi₄, hi₃, hi₂, greatest]
  exact ⟨rfl, rfl⟩

theorem has_div_isAt (outward : k.IsOutward) (ha : a.IsOf k) (hb : b.IsOf k)
    (full : a.isEmpty = false) (at' : b.IsAt p) (nonzero : p ≠ 0)
    (lower : k.Represents (a.lo.value.mul (fin p).inv))
    (upper : k.Represents (a.hi.value.mul (fin p).inv)) : (a.div b).Has q ↔ a.Has (p * q) := by
  obtain ⟨least, greatest⟩ := div_bounds outward ha hb full at'.isEmpty
    (at'.containsZero nonzero) at'.lo at'.hi (by simp [lower, upper])
  rw [min_self, min_assoc, min_self] at least
  rw [max_self, max_assoc, max_self] at greatest
  rw [Has, Spans, least, greatest, ExtRat.between_mul_inv (isEmpty_eq_false_iff.1 full) nonzero]
  rfl

section Rational

variable (ha : a.IsRational) (full : b.isEmpty = false) (at' : a.IsAt p)
include ha full at'

theorem has_mul_isAt (nonzero : p ≠ 0) : (a.mul b).Has q ↔ b.Has (p⁻¹ * q) := by
  have factor (t : ExtRat) : (fin p).mul t = t.mul (fin p⁻¹).inv := by
    rw [ExtRat.mul_comm, inv, inv_inv]
  rw [Interval.mul, at'.isEmpty, full, Bool.or_self, if_neg Bool.false_ne_true, Has, Spans]
  simp only [least, greatest, value_min, value_max,
    value_mul_of_rational ha.lo, value_mul_of_rational ha.hi, at'.lo, at'.hi, factor]
  rw [min_assoc, min_self, max_assoc, max_self, ExtRat.between_mul_inv
    (isEmpty_eq_false_iff.1 full) (inv_ne_zero nonzero)]
  rfl

theorem has_add_isAt : (a.add b).Has q ↔ b.Has (q - p) := by
  rw [Interval.add, at'.isEmpty, full, Bool.or_self, if_neg Bool.false_ne_true, Has, Spans]
  simp only [value_add_of_fin ha.lo at'.lo, value_add_of_fin ha.hi at'.hi]
  rw [ExtRat.fin_add_le, ExtRat.le_fin_add]
  rfl

end Rational

end Interval

end Enclosure
