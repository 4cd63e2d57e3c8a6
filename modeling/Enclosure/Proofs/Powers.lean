import Enclosure.Proofs.Constraints

/-!
# Powers of intervals

Repeated squaring in a direction keeps every bound that products in that direction keep, so it
bounds powers of magnitudes.
-/

namespace Enclosure

open ExtRat Number

namespace Kind

theorem round_nonneg {k : Kind} {x : ExtRat} {r : Rounding} (directed : k ≠ .double)
    (nonneg : .fin 0 ≤ x) : .fin 0 ≤ k.round r x := by
  cases k with
  | double => exact absurd rfl directed
  | rational => cases x <;> exact nonneg
  | binary bits =>
    cases x with
    | fin q => exact fin_le_fin.2 (Binary.round_nonneg bits r (fin_le_fin.1 nonneg))
    | _ => exact nonneg

end Kind

namespace Number

variable {a b : Number}

theorem value_abs (a : Number) : a.abs.value = Max.max a.value a.value.neg := by
  unfold abs sign neg
  split
  · rename_i negative
    have below : a.value ≤ .fin 0 := sign_nonpos.1 negative.le
    exact (max_eq_right (below.trans (fin_le_neg.2 (by simpa using below)))).symm
  · rename_i nonnegative
    have above : .fin 0 ≤ a.value := sign_nonneg.1 (not_lt.1 nonnegative)
    exact (max_eq_left ((neg_le_fin.2 (by simpa using above)).trans above)).symm

@[simp]
theorem kind_abs (a : Number) : a.abs.kind = a.kind := by
  unfold abs
  split <;> rfl

theorem kind_mul_ne_double (directed : a.kind ≠ .double) (r : Rounding) (b : Number) :
    (a.mul r b).kind ≠ .double := by
  rw [mul_eq directed]
  exact Kind.common_ne_double directed

theorem abs_nonneg (a : Number) : .fin 0 ≤ a.abs.value := by
  rw [value_abs]
  rcases le_total (.fin 0) a.value with above | below
  · exact above.trans (le_max_left _ _)
  · exact (fin_le_neg.2 (by simpa using below)).trans (le_max_right _ _)

theorem abs_neg (a : Number) : a.neg.abs = a.abs := by
  have value : a.neg.abs.value = a.abs.value := by
    rw [value_abs, value_abs, neg, neg_neg, max_comm]
  calc a.neg.abs = ⟨a.neg.abs.kind, a.neg.abs.value⟩ := rfl
    _ = ⟨a.abs.kind, a.abs.value⟩ := by rw [value, kind_abs, kind_abs, neg]

theorem abs_of_neg (negative : a.sign < 0) : a.abs = a.neg := if_pos negative

end Number

namespace Interval

variable {a e : Interval} {x base acc : Number} {p q : Rat} {n : Nat}

theorem powerBySquaring_keeps {R : Rat → Number → Prop} {r : Rounding}
    (mul : ∀ {p q x y}, R p x → R q y → R (p * q) (x.mul r y)) (hacc : R p acc)
    (hbase : R q base) : R (p * q ^ n) (powerBySquaring r base acc n) := by
  induction n using Nat.strongRecOn generalizing base acc p q with
  | ind n ih =>
    have step : R (p * q ^ (n % 2)) (if n % 2 = 1 then acc.mul r base else acc) := by
      by_cases odd : n % 2 = 1
      · rw [odd, pow_one]
        exact mul hacc hbase
      · have even : n % 2 = 0 := by omega
        rwa [even, pow_zero, mul_one]
    rw [powerBySquaring]
    split
    · rename_i zero
      rwa [zero, pow_zero, mul_one]
    · dsimp only
      split
      · have power : q ^ (n % 2) = q ^ n := congrArg _ (by omega)
        rwa [power] at step
      · have power : q ^ n = q ^ (n % 2) * (q * q) ^ (n / 2) := by
          rw [← pow_two, ← pow_mul, ← pow_add, Nat.mod_add_div]
        rw [power, ← mul_assoc]
        exact ih (n / 2) (by omega) step (mul hbase hbase)

theorem le_powerBySquaring_up (directed : base.kind ≠ .double) (directed' : acc.kind ≠ .double)
    (nonneg : 0 ≤ p) (nonneg' : 0 ≤ q) (hacc : .fin p ≤ acc.value) (hbase : .fin q ≤ base.value) :
    .fin (p * q ^ n) ≤ (powerBySquaring .up base acc n).value := by
  let R (p : Rat) (x : Number) : Prop := x.kind ≠ .double ∧ 0 ≤ p ∧ .fin p ≤ x.value
  have mul {p q : Rat} {x y : Number} (hx : R p x) (hy : R q y) : R (p * q) (x.mul .up y) := by
    refine ⟨kind_mul_ne_double hx.1 .up y, mul_nonneg hx.2.1 hy.2.1, ?_⟩
    refine le_trans ?_ (le_mul_up hx.1)
    exact mul_le_mul hx.2.2 hy.2.2 (fin_le_fin.2 hy.2.1) ((fin_le_fin.2 hx.2.1).trans hx.2.2)
  exact (powerBySquaring_keeps (R := R) mul ⟨directed', nonneg, hacc⟩
    ⟨directed, nonneg', hbase⟩).2.2

theorem powerBySquaring_down_le (directed : base.kind ≠ .double) (directed' : acc.kind ≠ .double)
    (nonneg : .fin 0 ≤ acc.value) (nonneg' : .fin 0 ≤ base.value) (hacc : acc.value ≤ .fin p)
    (hbase : base.value ≤ .fin q) :
    (powerBySquaring .down base acc n).value ≤ .fin (p * q ^ n) := by
  let R (p : Rat) (x : Number) : Prop :=
    x.kind ≠ .double ∧ .fin 0 ≤ x.value ∧ x.value ≤ .fin p
  have mul {p q : Rat} {x y : Number} (hx : R p x) (hy : R q y) : R (p * q) (x.mul .down y) := by
    have product : .fin 0 ≤ x.value.mul y.value := by
      simpa [zero_mul] using mul_le_mul hx.2.1 hy.2.1 le_rfl hx.2.1
    refine ⟨kind_mul_ne_double hx.1 .down y, ?_, ?_⟩
    · rw [mul_eq hx.1]
      exact Kind.round_nonneg (Kind.common_ne_double hx.1) product
    · refine (mul_down_le hx.1).trans ?_
      exact mul_le_mul hx.2.2 hy.2.2 hy.2.1 (hx.2.1.trans hx.2.2)
  exact (powerBySquaring_keeps (R := R) mul ⟨directed', nonneg, hacc⟩
    ⟨directed, nonneg', hbase⟩).2.2

section

variable (outward : x.kind.IsOutward) (pos : n ≠ 0)
include outward pos

theorem le_magnitudePower (nonneg : 0 ≤ q) (h : .fin q ≤ x.abs.value) :
    .fin (q ^ n) ≤ (magnitudePower x n true).value := by
  unfold magnitudePower
  dsimp only
  split
  · have power : .fin (1 * q ^ n) ≤ (powerBySquaring .up x.abs (.one x.kind) n).value :=
      le_powerBySquaring_up (by simpa using outward.directed) outward.directed zero_le_one nonneg
        outward.unit.ge h
    rwa [one_mul] at power
  · cases below : decide (x.abs ≤ one x.kind) with
    | false => exact le_posInf _
    | true =>
      -- a magnitude up to one is not below its powers
      have bound : x.abs.value ≤ .fin 1 := by
        rw [← outward.unit]
        exact of_decide_eq_true below
      have small : q ≤ 1 := fin_le_fin.1 (h.trans bound)
      exact (fin_le_fin.2 (pow_le_of_le_one nonneg small pos)).trans h

theorem magnitudePower_le (h : x.abs.value ≤ .fin q) :
    (magnitudePower x n false).value ≤ .fin (q ^ n) := by
  have nonneg := abs_nonneg x
  have nonneg' : 0 ≤ q := fin_le_fin.1 (nonneg.trans h)
  unfold magnitudePower
  dsimp only
  split
  · have power : (powerBySquaring .down x.abs (.one x.kind) n).value ≤ .fin (1 * q ^ n) :=
      powerBySquaring_down_le (by simpa using outward.directed) outward.directed
        (by rw [outward.unit]; exact fin_le_fin.2 zero_le_one) nonneg outward.unit.le h
    rwa [one_mul] at power
  · cases below : decide (x.abs ≤ one x.kind) with
    | true => exact fin_le_fin.2 (pow_nonneg nonneg' n)
    | false =>
      -- a magnitude above one is not above its powers
      have bound : .fin 1 < x.abs.value := by
        rw [← outward.unit]
        exact not_le.1 (of_decide_eq_false below)
      have large : 1 ≤ q := (fin_lt_fin.1 (bound.trans_le h)).le
      exact h.trans (fin_le_fin.2 (le_self_pow₀ large pos))

theorem signedPower_le (h : x.value ≤ .fin q) (monotone : n % 2 = 1 ∨ 0 ≤ x.sign) :
    (signedPower x n false).value ≤ .fin (q ^ n) := by
  unfold signedPower
  split
  · rename_i both
    obtain ⟨negative, odd⟩ : x.sign < 0 ∧ n % 2 = 1 := by simpa using both
    have magnitude : x.abs.value = x.value.neg := by rw [Number.abs_of_neg negative]; rfl
    -- the power is minus that of the magnitude, which is at least the negative part of `q`
    refine neg_le_fin.2 ?_
    rcases le_total 0 q with nonneg | nonpos
    · refine le_trans ?_ (le_magnitudePower outward pos le_rfl (abs_nonneg x))
      exact fin_le_fin.2 (by rw [zero_pow pos]; linarith [pow_nonneg nonneg n])
    · have power : -(q ^ n) = (-q) ^ n := (Nat.odd_iff.2 odd).neg_pow q |>.symm
      rw [power]
      refine le_magnitudePower outward pos (neg_nonneg.2 nonpos) ?_
      rw [magnitude]
      exact fin_le_neg.2 (by simpa using h)
  · rename_i neither
    have nonneg : 0 ≤ x.sign := by
      rcases monotone with odd | nonneg
      · simpa [odd] using neither
      · exact nonneg
    exact magnitudePower_le outward pos (by rwa [Number.abs, if_neg (not_lt.2 nonneg)])

theorem le_signedPower (h : .fin q ≤ x.value) (monotone : n % 2 = 1 ∨ 0 ≤ q) :
    .fin (q ^ n) ≤ (signedPower x n true).value := by
  unfold signedPower
  split
  · rename_i both
    obtain ⟨negative, odd⟩ : x.sign < 0 ∧ n % 2 = 1 := by simpa using both
    have power : -(q ^ n) = (-q) ^ n := (Nat.odd_iff.2 odd).neg_pow q |>.symm
    refine fin_le_neg.2 ?_
    rw [power]
    refine magnitudePower_le outward pos ?_
    rw [Number.abs_of_neg negative]
    exact neg_le_fin.2 (by simpa using h)
  · rcases le_total 0 q with nonneg | nonpos
    · exact le_magnitudePower outward pos nonneg
        (h.trans (by rw [value_abs]; exact le_max_left _ _))
    · have power : q ^ n ≤ 0 ^ n := by
        rcases monotone with odd | nonneg
        · exact (Nat.odd_iff.2 odd).pow_le_pow.2 nonpos
        · rw [le_antisymm nonpos nonneg]
      exact (fin_le_fin.2 power).trans (le_magnitudePower outward pos le_rfl (abs_nonneg x))

end

theorem signedPower_neg (even : n % 2 = 0) (x : Number) (upward : Bool) :
    signedPower x.neg n upward = signedPower x n upward := by
  have kind : x.neg.kind = x.kind := rfl
  unfold signedPower magnitudePower
  simp [even, abs_neg, kind]

theorem has_exponent (h : exponent? e = some n) : e.Has q ↔ q = n := by
  unfold exponent? at h
  split at h
  · rename_i p value
    split at h
    · rename_i point
      obtain ⟨⟨⟨same, -⟩, whole⟩, nonneg⟩ : ((e.lo.same e.hi = true ∧ _) ∧ p.den = 1) ∧ 0 ≤ p := by
        simpa [isPoint] using point
      have eq : e.lo.value = e.hi.value := by simpa [Number.same] using same
      obtain rfl := Option.some.inj h
      have natural : p.num.toNat = p := by
        rw [← Int.cast_natCast, Int.toNat_of_nonneg (Rat.num_nonneg.2 nonneg)]
        exact Rat.coe_int_num_of_den_eq_one whole
      rw [Has, Spans, ← eq, value, natural, fin_le_fin, fin_le_fin, ← le_antisymm_iff, eq_comm]
    · cases h
  · cases h

theorem Has.pow (lo : a.lo.kind.IsOutward) (hi : a.hi.kind.IsOutward)
    (exponent : exponent? e = some n) (h : a.Has q) : (a.pow e).Has (q ^ n) := by
  have full : e.isEmpty = false := Spans.not_isEmpty ((has_exponent exponent).2 rfl)
  unfold Interval.pow
  rw [h.not_isEmpty, full, Bool.or_self, if_neg Bool.false_ne_true, exponent]
  dsimp only
  by_cases zero : n = 0
  · rw [zero, pow_zero]
    exact ⟨lo.unit.le, lo.unit.ge⟩
  rw [if_neg zero]
  split
  · rename_i monotone
    have monotone' : n % 2 = 1 ∨ 0 ≤ a.lo.sign := by simpa using monotone
    exact ⟨signedPower_le lo zero h.1 monotone',
      le_signedPower hi zero h.2 (monotone'.imp id h.lo_le)⟩
  rename_i neither
  obtain ⟨even, -⟩ : n % 2 = 0 ∧ a.lo.sign < 0 := by simpa using neither
  have power : q ^ n = (-q) ^ n := ((Nat.even_iff.2 even).neg_pow q).symm
  split
  · -- even and not positive: the power falls
    rename_i nonpos
    rw [← signedPower_neg even a.hi, ← signedPower_neg even a.lo, power]
    refine ⟨signedPower_le hi zero (neg_le_fin.2 (by simpa using h.2)) (.inr ?_),
      le_signedPower lo zero (fin_le_neg.2 (by simpa using h.1)) (.inr ?_)⟩
    · exact sign_nonneg.2 (fin_le_neg.2 (by simpa using sign_nonpos.1 nonpos))
    · exact neg_nonneg.2 (h.le_hi nonpos)
  · refine ⟨fin_le_fin.2 ((Nat.even_iff.2 even).pow_nonneg q), ?_⟩
    rw [value_max]
    rcases le_total 0 q with nonneg | nonpos
    · exact (le_signedPower hi zero h.2 (.inr nonneg)).trans (le_max_right _ _)
    · refine le_trans ?_ (le_max_left _ _)
      rw [power, ← signedPower_neg even]
      exact le_signedPower lo zero (fin_le_neg.2 (by simpa using h.1)) (.inr (neg_nonneg.2 nonpos))

end Interval

end Enclosure
