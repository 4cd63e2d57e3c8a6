import Enclosure.Proofs.Constraints

/-!
# Quotients of intervals

A quotient of members is a product with the reciprocal of a member of the divisor, and the
reciprocals of a divisor without zero lie between those of its bounds.
-/

namespace Enclosure

open ExtRat

namespace ExtRat

variable {x y z : ExtRat} {q : Rat}

def inv : ExtRat → ExtRat
  | fin q => fin q⁻¹
  | _ => fin 0

theorem eq_mul_inv_of_div? (nonzero : y ≠ fin 0) (h : x.div? y = some z) : z = x.mul y.inv := by
  cases y with
  | fin b =>
    have bne : b ≠ 0 := fun zero => nonzero (by rw [zero])
    cases x with
    | fin a =>
      rw [div?, if_neg bne, Option.some.injEq] at h
      rw [← h]
      rfl
    | _ =>
      obtain rfl := Option.some.inj h
      rcases lt_or_gt_of_ne bne with negative | positive
      · simp [negative, inv, mul, sign, infinity, neg, negative.not_gt]
      · simp [positive.not_gt, inv, mul, sign, infinity, positive]
  | _ =>
    cases x with
    | fin a =>
      obtain rfl := Option.some.inj h
      simp [inv, mul, zero]
    | _ => simp [div?] at h

theorem inv_le_of_pos (pos : fin 0 < x) (le : x ≤ y) : y.inv ≤ x.inv := by
  cases x with
  | negInf => exact absurd pos (not_lt.2 (negInf_le _))
  | posInf => rw [le_antisymm (le_posInf y) le]
  | fin p =>
    rw [fin_lt_fin] at pos
    cases y with
    | negInf => exact absurd le not_fin_le_negInf
    | fin q => exact fin_le_fin.2 (inv_anti₀ pos (fin_le_fin.1 le))
    | posInf => exact fin_le_fin.2 (inv_nonneg.2 pos.le)

theorem inv_le_of_neg (neg : y < fin 0) (le : x ≤ y) : y.inv ≤ x.inv := by
  cases y with
  | posInf => exact absurd neg (not_lt.2 (le_posInf _))
  | negInf => rw [le_antisymm le (negInf_le x)]
  | fin q =>
    rw [fin_lt_fin] at neg
    cases x with
    | posInf => exact absurd le not_posInf_le_fin
    | fin p =>
      have bound := fin_le_fin.1 le
      exact fin_le_fin.2 ((inv_le_inv_of_neg neg (bound.trans_lt neg)).2 bound)
    | negInf => exact fin_le_fin.2 (inv_nonpos.2 neg.le)

theorem inv_between {lo hi : ExtRat} (above : lo ≤ x) (below : x ≤ hi)
    (apart : fin 0 < lo ∨ hi < fin 0) : hi.inv ≤ x.inv ∧ x.inv ≤ lo.inv := by
  rcases apart with positive | negative
  · exact ⟨inv_le_of_pos (positive.trans_le above) below, inv_le_of_pos positive above⟩
  · exact ⟨inv_le_of_neg negative below, inv_le_of_neg (below.trans_lt negative) above⟩

end ExtRat

namespace Number

variable {a b : Number}

theorem div?_eq (directed : a.kind ≠ .double) (r : Rounding) :
    a.div? r b = (a.value.div? b.value).map (ofExt (a.kind.common b.kind) r) := by
  unfold div?
  split
  · simp_all
  · rfl

end Number

namespace Interval

variable {a b i j : Interval} {p q : Rat} {u v : ExtRat}

theorem includeQuotient_spec {x y : Number} (directed : x.kind ≠ .double)
    (h : includeQuotient i x y = some j) :
    j.lo.value ≤ i.lo.value ∧ i.hi.value ≤ j.hi.value ∧
      ∃ z, x.value.div? y.value = some z ∧ j.Spans z := by
  unfold includeQuotient at h
  rw [Number.div?_eq directed, Number.div?_eq directed] at h
  cases quotient : x.value.div? y.value with
  | none => simp [quotient] at h
  | some z =>
    rw [quotient] at h
    obtain rfl := Option.some.inj h
    have common := Kind.common_ne_double (l := y.kind) directed
    simp only [Spans, Number.value_min, Number.value_max]
    exact ⟨min_le_left _ _, le_max_left _ _, z, rfl,
      (min_le_right _ _).trans (Kind.round_down_le common),
      (Kind.le_round_up common).trans (le_max_right _ _)⟩

theorem foldlM_includeQuotient_spec (pairs : List (Number × Number))
    (directed : ∀ p ∈ pairs, p.1.kind ≠ .double)
    (h : pairs.foldlM (fun i p => includeQuotient i p.1 p.2) i = some j) :
    j.lo.value ≤ i.lo.value ∧ i.hi.value ≤ j.hi.value ∧
      ∀ p ∈ pairs, ∃ z, p.1.value.div? p.2.value = some z ∧ j.Spans z := by
  induction pairs generalizing i with
  | nil =>
    obtain rfl : i = j := by simpa using h
    exact ⟨le_refl _, le_refl _, by simp⟩
  | cons p pairs ih =>
    obtain ⟨_, first, rest⟩ := Option.bind_eq_some_iff.1 h
    obtain ⟨lo, hi, z, quotient, spans⟩ := includeQuotient_spec (directed p (by simp)) first
    obtain ⟨lo', hi', others⟩ := ih (fun p mem => directed p (by simp [mem])) rest
    refine ⟨lo'.trans lo, hi.trans hi', List.forall_mem_cons.2 ⟨⟨z, quotient, ?_⟩, others⟩⟩
    exact ⟨lo'.trans spans.1, spans.2.trans hi'⟩

theorem apart_of_not_containsZero (apart : b.containsZero = false) :
    .fin 0 < b.lo.value ∨ b.hi.value < .fin 0 := by
  by_contra both
  rw [not_or, not_lt, not_lt] at both
  exact Bool.eq_false_iff.1 apart (containsZero_iff.2 ⟨both.1, both.2⟩)

section

variable (lo : a.lo.kind ≠ .double) (hi : a.hi.kind ≠ .double)
include lo hi

theorem Spans.div (ha : a.Spans u) (hb : b.Spans v) (nonzero : v ≠ .fin 0) :
    (a.div b).Spans (u.mul v.inv) := by
  have notZero : b.isZero = false := Bool.eq_false_iff.2 fun zero =>
    nonzero ((spans_of_isZero zero).1 hb)
  unfold Interval.div
  dsimp only
  rw [ha.not_isEmpty, hb.not_isEmpty, notZero, Bool.or_self, Bool.or_self,
    if_neg Bool.false_ne_true]
  split
  · exact ⟨negInf_le _, le_posInf _⟩
  · rename_i apart
    have sign := apart_of_not_containsZero (Bool.eq_false_iff.2 apart)
    cases run : List.foldlM (fun i (p : Number × Number) => includeQuotient i p.1 p.2)
        ⟨.infinity a.kind 1, .infinity a.kind (-1)⟩
        [(a.lo, b.lo), (a.lo, b.hi), (a.hi, b.lo), (a.hi, b.hi)] with
    | none => exact ⟨negInf_le _, le_posInf _⟩
    | some j =>
      obtain ⟨-, -, quotients⟩ := foldlM_includeQuotient_spec _ (by simp [lo, hi]) run
      have corner {x y : Number} (mem : (x, y) ∈ [(a.lo, b.lo), (a.lo, b.hi), (a.hi, b.lo),
          (a.hi, b.hi)]) (bound : y.value ≠ .fin 0) : j.Spans (x.value.mul y.value.inv) := by
        obtain ⟨z, quotient, _⟩ := quotients (x, y) mem
        rwa [← eq_mul_inv_of_div? bound quotient]
      have order : b.lo.value ≤ b.hi.value := hb.1.trans hb.2
      have low : b.lo.value ≠ .fin 0 :=
        sign.elim (fun h => h.ne') fun h => (order.trans_lt h).ne
      have high : b.hi.value ≠ .fin 0 :=
        sign.elim (fun h => (h.trans_le order).ne') fun h => h.ne
      have between := inv_between hb.1 hb.2 sign
      exact spans_mul_of_corners ha between (corner (by simp) high) (corner (by simp) low)
        (corner (by simp) high) (corner (by simp) low)

theorem Has.div (ha : a.Has p) (hb : b.Has q) (nonzero : q ≠ 0) : (a.div b).Has (p / q) := by
  exact Spans.div lo hi ha hb (mt fin.inj nonzero)

theorem div_eq_top (full : a.isEmpty = false) (full' : b.isEmpty = false)
    (apart : b.containsZero = false) (unbounded : a.hi.value = .posInf)
    (infinite : b.lo.value = .negInf ∨ b.hi.value = .posInf) : a.div b = top a.kind := by
  have notZero : b.isZero = false := by
    rw [Bool.eq_false_iff]
    intro zero
    exact Bool.eq_false_iff.1 apart (containsZero_iff.2 ((has_of_isZero zero).2 rfl))
  unfold Interval.div
  dsimp only
  rw [full, full', notZero, apart]
  cases run : List.foldlM (fun i (p : Number × Number) => includeQuotient i p.1 p.2)
      ⟨.infinity a.kind 1, .infinity a.kind (-1)⟩
      [(a.lo, b.lo), (a.lo, b.hi), (a.hi, b.lo), (a.hi, b.hi)] with
  | none => rfl
  | some j =>
    -- the pair of the two infinite bounds would have a quotient
    obtain ⟨-, -, quotients⟩ := foldlM_includeQuotient_spec _ (by simp [lo, hi]) run
    rcases infinite with below | above
    · obtain ⟨z, quotient, -⟩ := quotients (a.hi, b.lo) (by simp)
      rw [unbounded, below] at quotient
      cases quotient
    · obtain ⟨z, quotient, -⟩ := quotients (a.hi, b.hi) (by simp)
      rw [unbounded, above] at quotient
      cases quotient

end

end Interval

end Enclosure
