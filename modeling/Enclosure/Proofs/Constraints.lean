import Enclosure.Constraint.Linear
import Enclosure.Proofs.Forms

/-!
# Points and constraints

A point of a space is a rational vector with integers on the integer dimensions.
-/

namespace Enclosure

open ExtRat

/-- The vector has one entry per dimension, and integers on the integer dimensions. -/
structure Space.IsPoint (s : Space) (x : List Rat) : Prop where
  length : x.length = s.size
  integral : ∀ d, s.isInt d = true → (x.getD d 0).den = 1

theorem Space.isPoint_of_real {s : Space} (real : s.ints = 0) {x : List Rat}
    (length : x.length = s.size) : s.IsPoint x :=
  ⟨length, fun d integer => by simp [Space.isInt, real] at integer⟩

namespace Interval

variable {i : Interval} {v : Rat}

theorem containsZero_iff : i.containsZero = true ↔ i.Has 0 := by
  simp [containsZero, Has, Spans, Number.sign, sign_nonneg, sign_nonpos]

theorem Has.le_hi (h : i.Has v) (nonpos : i.hi.sign ≤ 0) : v ≤ 0 :=
  h.2.trans (sign_nonpos.1 nonpos)

theorem Has.lo_le (h : i.Has v) (nonneg : 0 ≤ i.lo.sign) : 0 ≤ v :=
  (sign_nonneg.1 nonneg).trans h.1

end Interval

namespace Comparison

variable {c : Comparison} {modulus : Option Number} {i : Interval} {v : Rat} {r : ExtRat}

/-- The comparison of a value with zero, or with the multiples of the modulus. -/
def Holds (c : Comparison) (modulus : Option Number) (v : Rat) : Prop :=
  match c with
  | equal => v = 0
  | atLeast => 0 ≤ v
  | above => 0 < v
  | notEqual => v ≠ 0
  | congruent =>
    match modulus with
    | none => v = 0
    | some m => ∃ k : Int, .fin v = (fin k).mul m.value

def Admits (c : Comparison) (modulus : Option Number) : ExtRat → Prop
  | .negInf => c = notEqual
  | .fin v => c.Holds modulus v
  | .posInf => c = atLeast ∨ c = above ∨ c = notEqual

private theorem not_holds_of_excludes (excluded : c.excludes modulus i = true) (has : i.Has v) :
    ¬ c.Holds modulus v := by
  have zero (h : (!i.containsZero) = true) : v ≠ 0 := by
    rintro rfl
    simp [Interval.containsZero_iff.2 has] at h
  unfold excludes at excluded
  rw [has.not_isEmpty, Bool.false_or] at excluded
  cases c with
  | equal => exact zero excluded
  | atLeast =>
    intro holds
    have negative : i.hi.sign < 0 := by simpa using excluded
    have := (sign_nonneg).2 (le_trans holds has.2)
    exact absurd this (not_le.2 negative)
  | above =>
    intro holds
    exact absurd holds (not_lt.2 (has.le_hi (by simpa using excluded)))
  | notEqual =>
    intro holds
    exact holds ((Interval.has_of_isZero excluded).1 has)
  | congruent =>
    cases modulus with
    | none => exact zero excluded
    | some m =>
      rintro ⟨k, multiple⟩
      simp only [Bool.and_eq_true] at excluded
      rw [isZero_iff.1 excluded.1] at multiple
      refine zero excluded.2 ?_
      simpa [mul] using multiple

theorem not_admits_of_excludes (excluded : c.excludes modulus i = true) (spans : i.Spans r) :
    ¬ c.Admits modulus r := by
  have infinite (zero : i.isZero = true) : r = .fin 0 := (Interval.spans_of_isZero zero).1 spans
  cases r with
  | fin v => exact not_holds_of_excludes excluded spans
  | negInf =>
    rintro rfl
    rw [excludes, spans.not_isEmpty] at excluded
    simpa using infinite excluded
  | posInf =>
    have top : i.hi.value = .posInf := le_antisymm (le_posInf _) spans.2
    rintro (rfl | rfl | rfl)
    · simp [excludes, spans.not_isEmpty, Number.sign, top, sign] at excluded
    · simp [excludes, spans.not_isEmpty, Number.sign, top, sign] at excluded
    · rw [excludes, spans.not_isEmpty] at excluded
      simpa using infinite excluded

private theorem holds_of_includes (included : c.includes i = true) (has : i.Has v) :
    c.Holds modulus v := by
  cases c with
  | equal => exact (Interval.has_of_isZero included).1 has
  | atLeast => exact has.lo_le (by simpa [includes] using included)
  | above =>
    have positive : 0 < i.lo.value.sign := of_decide_eq_true included
    rw [← not_le, sign_nonpos, not_le] at positive
    exact fin_lt_fin.1 (positive.trans_le has.1)
  | notEqual =>
    rintro rfl
    simp [includes, Interval.containsZero_iff.2 has] at included
  | congruent =>
    have zero : v = 0 := (Interval.has_of_isZero included).1 has
    cases modulus with
    | none => exact zero
    | some m => exact ⟨0, by rw [zero, Int.cast_zero, zero_mul]⟩

theorem admits_of_includes (included : c.includes i = true) (spans : i.Spans r) :
    c.Admits modulus r := by
  have finite (zero : i.isZero = true) : r = .fin 0 := (Interval.spans_of_isZero zero).1 spans
  have nonneg (sign : 0 ≤ i.lo.sign) : .fin 0 ≤ r := (sign_nonneg.1 sign).trans spans.1
  cases r with
  | fin v => exact holds_of_includes included spans
  | negInf =>
    cases c with
    | notEqual => rfl
    | equal => simpa using finite included
    | congruent => simpa using finite included
    | atLeast => simpa using nonneg (of_decide_eq_true included)
    | above => simpa using nonneg (of_decide_eq_true included).le
  | posInf =>
    cases c with
    | equal => simpa using finite included
    | congruent => simpa using finite included
    | _ => simp [Admits]

end Comparison

namespace LinearConstraint

def Holds (c : LinearConstraint) (x : List Rat) : Prop :=
  ∃ v, c.form.Takes x v ∧ c.comparison.Holds c.modulus v

def Admits (c : LinearConstraint) (x : List Rat) : Prop :=
  ∃ r, c.form.Reaches x r ∧ c.comparison.Admits c.modulus r

variable {c : LinearConstraint}

theorem Holds.admits {x : List Rat} (h : c.Holds x) : c.Admits x := by
  obtain ⟨v, takes, holds⟩ := h
  exact ⟨.fin v, takes.reaches, holds⟩

theorem holds_iff_takes_zero (equation : c.comparison = .equal)
    {x : List Rat} : c.Holds x ↔ c.form.Takes x 0 := by
  rw [Holds, equation]
  constructor
  · rintro ⟨v, takes, zero⟩
    obtain rfl : v = 0 := zero
    exact takes
  · exact fun takes => ⟨0, takes, rfl⟩

theorem not_admits_of_isUnsatisfiable (h : c.isUnsatisfiable = true)
    (x : List Rat) : ¬ c.Admits x := by
  rintro ⟨r, reaches, admits⟩
  simp only [isUnsatisfiable, LinearForm.isConstant, Bool.and_eq_true, List.isEmpty_iff] at h
  obtain ⟨k, t, spans, sum, rfl⟩ := LinearForm.reaches_iff_nonzero.1 reaches
  rw [h.1, Terms.reaches_nil] at sum
  rw [sum, fin_zero_add] at admits
  exact Comparison.not_admits_of_excludes h.2 spans admits

end LinearConstraint

end Enclosure
