import Enclosure.Constraint.LinearBound
import Mathlib.Algebra.BigOperators.Group.List.Basic
import Mathlib.Data.List.GetD
import Mathlib.Tactic.Linarith
import Mathlib.Tactic.Ring

/-!
# Rational vectors

A point of a space is a list of rationals.
-/

namespace Enclosure

open List

theorem lt_of_getElem? {α : Type} {l : List α} {i : Nat} {a : α} (found : l[i]? = some a) :
    i < l.length :=
  (List.getElem?_eq_some_iff.1 found).1

theorem getD_set_of_ne {xs : List Rat} {i d : Nat} (other : i ≠ d) (q : Rat) :
    (xs.set d q).getD i 0 = xs.getD i 0 := by
  rw [getD_eq_getElem?_getD, getElem?_set_ne (.symm other), getD_eq_getElem?_getD]

theorem getD_set_self {xs : List Rat} {d : Nat} (inside : d < xs.length) (q : Rat) :
    (xs.set d q).getD d 0 = q := by
  rw [getD_eq_getElem?_getD, getElem?_set_self inside, Option.getD_some]

theorem getD_map_mul (q : Rat) (cs : List Rat) (d : Nat) :
    (cs.map (· * q)).getD d 0 = cs.getD d 0 * q := by
  rw [← getD_map (f := (· * q)), zero_mul]

theorem dot_eq_sum (cs xs : List Rat) : dot cs xs = (zipWith (· * ·) cs xs).sum := by
  rw [dot, sum_eq_foldl]

@[simp]
theorem dot_nil (xs : List Rat) : dot [] xs = 0 := by
  simp [dot_eq_sum]

@[simp]
theorem dot_nil_right (cs : List Rat) : dot cs [] = 0 := by
  simp [dot_eq_sum]

@[simp]
theorem dot_cons (c : Rat) (cs : List Rat) (x : Rat) (xs : List Rat) :
    dot (c :: cs) (x :: xs) = c * x + dot cs xs := by
  simp [dot_eq_sum]

theorem dot_comm (cs xs : List Rat) : dot cs xs = dot xs cs := by
  rw [dot_eq_sum, dot_eq_sum, zipWith_comm]
  simp only [mul_comm]

variable {cs : List Rat}

theorem dot_append {xs : List Rat} (same : cs.length = xs.length) (ds ys : List Rat) :
    dot (cs ++ ds) (xs ++ ys) = dot cs xs + dot ds ys := by
  simp [dot_eq_sum, zipWith_append same]

theorem dot_map_mul (q : Rat) (cs xs : List Rat) : dot (cs.map (· * q)) xs = dot cs xs * q := by
  induction cs generalizing xs with
  | nil => simp
  | cons c cs ih =>
    cases xs with
    | nil => simp
    | cons x xs =>
      simp only [map_cons, dot_cons, ih]
      ring

theorem dot_map_div (q : Rat) (cs xs : List Rat) : dot (cs.map (· / q)) xs = dot cs xs / q := by
  simpa only [div_eq_mul_inv] using dot_map_mul q⁻¹ cs xs

theorem dot_map_neg (cs xs : List Rat) : dot (cs.map (- ·)) xs = -dot cs xs := by
  simpa using dot_map_mul (-1) cs xs

theorem dot_zipWith {ds : List Rat} (same : cs.length = ds.length) (p q : Rat) (xs : List Rat) :
    dot (zipWith (fun a b => a * p + b * q) cs ds) xs = dot cs xs * p + dot ds xs * q := by
  induction cs generalizing ds xs with
  | nil =>
    cases ds with
    | nil => simp
    | cons d ds => simp at same
  | cons c cs ih =>
    cases ds with
    | nil => simp at same
    | cons d ds =>
      cases xs with
      | nil => simp
      | cons x xs =>
        simp only [zipWith_cons_cons, dot_cons, ih (by simpa using same)]
        ring

theorem dot_of_allZero (zero : allZero cs = true) (xs : List Rat) : dot cs xs = 0 := by
  induction cs generalizing xs with
  | nil => simp
  | cons c cs ih =>
    simp only [allZero, all_cons, Bool.and_eq_true, decide_eq_true_eq] at zero
    cases xs with
    | nil => simp
    | cons x xs => simp [zero.1, ih zero.2]

theorem dot_replicate_zero (n : Nat) (xs : List Rat) : dot (replicate n 0) xs = 0 :=
  dot_of_allZero (by simp [allZero]) xs

theorem dot_insertIdx {ys : List Rat} {col : Nat} (inside : col < cs.length)
    (reach : col ≤ ys.length) (t : Rat) :
    dot cs (ys.insertIdx col t) = cs.getD col 0 * t + dot (cs.eraseIdx col) ys := by
  induction col generalizing cs ys with
  | zero =>
    cases cs with
    | nil => simp at inside
    | cons c cs => simp
  | succ col ih =>
    cases cs with
    | nil => simp at inside
    | cons c cs =>
      cases ys with
      | nil => simp at reach
      | cons y ys =>
        simp only [insertIdx_succ_cons, dot_cons, eraseIdx_cons_succ, getD_cons_succ]
        rw [ih (by simpa using inside) (by simpa using reach)]
        ring

theorem dot_set {col : Nat} (inside : col < cs.length) (q : Rat) (xs : List Rat) :
    dot (cs.set col q) xs = dot cs xs + (q - cs.getD col 0) * xs.getD col 0 := by
  induction col generalizing cs xs with
  | zero =>
    cases cs with
    | nil => simp at inside
    | cons c cs =>
      cases xs with
      | nil => simp
      | cons x xs =>
        simp only [set_cons_zero, dot_cons, getD_cons_zero]
        ring
  | succ col ih =>
    cases cs with
    | nil => simp at inside
    | cons c cs =>
      cases xs with
      | nil => simp
      | cons x xs =>
        simp only [set_cons_succ, dot_cons, getD_cons_succ]
        rw [ih (by simpa using inside)]
        ring

theorem exists_dot_eq (matters : allZero cs = false) (v : Rat) :
    ∃ xs : List Rat, xs.length = cs.length ∧ dot cs xs = v := by
  induction cs with
  | nil => simp [allZero] at matters
  | cons c cs ih =>
    by_cases zero : c = 0
    · obtain ⟨xs, length, value⟩ := ih (by simpa [allZero, zero] using matters)
      exact ⟨0 :: xs, by simp [length], by simp [value]⟩
    · refine ⟨v / c :: replicate cs.length 0, by simp, ?_⟩
      have rest : dot cs (replicate cs.length 0) = 0 := by
        rw [dot_eq_sum, zipWith_comm]
        simpa [dot_eq_sum, mul_comm] using dot_replicate_zero cs.length cs
      rw [dot_cons, rest, mul_div_cancel₀ _ zero, add_zero]

def sumAt (terms : List (Nat × Rat)) (x : List Rat) : Rat :=
  (terms.map fun t => t.2 * x.getD t.1 0).sum

@[simp]
theorem sumAt_nil (x : List Rat) : sumAt [] x = 0 := rfl

@[simp]
theorem sumAt_cons (t : Nat × Rat) (terms : List (Nat × Rat)) (x : List Rat) :
    sumAt (t :: terms) x = t.2 * x.getD t.1 0 + sumAt terms x := rfl

theorem dot_drop_eq_sumAt (coeffs x : List Rat) (n : Nat) :
    dot coeffs (x.drop n) =
      sumAt (((coeffs.zipIdx n).filter (·.1 ≠ 0)).map fun (q, d) => (d, q)) x := by
  induction coeffs generalizing n with
  | nil => simp
  | cons q coeffs ih =>
    have first : dot (q :: coeffs) (x.drop n) = q * x.getD n 0 + dot coeffs (x.drop (n + 1)) := by
      by_cases inside : n < x.length
      · rw [drop_eq_getElem_cons inside, dot_cons, getD_eq_getElem _ _ inside]
      · rw [drop_eq_nil_of_le (not_lt.1 inside), drop_eq_nil_of_le (by omega),
          getD_eq_default _ _ (not_lt.1 inside), dot_nil_right, dot_nil_right, mul_zero,
          add_zero]
    rw [first, ih, zipIdx_cons]
    by_cases zero : q = 0
    · rw [filter_cons_of_neg (by simpa using zero), zero, zero_mul, zero_add]
    · rw [filter_cons_of_pos (by simpa using zero), map_cons, sumAt_cons]

def termsOf (coeffs : List Rat) : List (Nat × Rat) :=
  (coeffs.zipIdx.filter (·.1 ≠ 0)).map fun (q, d) => (d, q)

theorem dot_eq_sumAt (coeffs x : List Rat) : dot coeffs x = sumAt (termsOf coeffs) x :=
  dot_drop_eq_sumAt coeffs x 0

theorem mem_terms {coeffs : List Rat} {t : Nat × Rat} :
    t ∈ termsOf coeffs ↔ coeffs[t.1]? = some t.2 ∧ t.2 ≠ 0 := by
  simp only [termsOf, mem_map, mem_filter, mem_zipIdx_iff_getElem?, decide_eq_true_eq]
  constructor
  · rintro ⟨e, kept, rfl⟩
    exact kept
  · exact fun h => ⟨(t.2, t.1), h, rfl⟩

theorem nodup_terms (coeffs : List Rat) : ((termsOf coeffs).map Prod.fst).Nodup := by
  have dims : (coeffs.zipIdx.map Prod.snd).Nodup := by
    rw [zipIdx_map_snd]
    exact nodup_range'
  rw [termsOf, map_map]
  exact dims.sublist (filter_sublist.map Prod.snd)

end Enclosure
