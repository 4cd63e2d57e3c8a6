import Enclosure.Proofs.Powers
import Enclosure.Proofs.Quotients
import Mathlib.Analysis.SpecialFunctions.Pow.Real

/-!
# Real members of intervals

Square roots leave the rationals, so the value of a term is a real number.
-/

namespace Enclosure

open Number Binary

/-- The real number lies between two elements of the set. -/
def Brackets (A : Set Rat) (r : ℝ) : Prop := (∃ p ∈ A, (p : ℝ) ≤ r) ∧ ∃ q ∈ A, r ≤ (q : ℝ)

namespace Brackets

variable {A B C : Set Rat} {r s : ℝ} {p q : Rat}

theorem mono (h : Brackets A r) (sub : A ⊆ B) : Brackets B r := by
  obtain ⟨⟨p, hp, below⟩, q, hq, above⟩ := h
  exact ⟨⟨p, sub hp, below⟩, q, sub hq, above⟩

theorem of_mem (mem : q ∈ A) : Brackets A (q : ℝ) := ⟨⟨q, mem, le_rfl⟩, q, mem, le_rfl⟩

theorem mem (h : Brackets A (q : ℝ)) (connected : A.OrdConnected) : q ∈ A := by
  obtain ⟨⟨p, hp, below⟩, _, hp', above⟩ := h
  exact connected.out hp hp' ⟨Rat.cast_le.1 below, Rat.cast_le.1 above⟩

theorem univ (r : ℝ) : Brackets Set.univ r :=
  ⟨⟨⌊r⌋, trivial, by exact_mod_cast Int.floor_le r⟩, ⌈r⌉, trivial, by exact_mod_cast Int.le_ceil r⟩

theorem neg (h : Brackets A r) (image : ∀ p ∈ A, -p ∈ C) : Brackets C (-r) := by
  obtain ⟨⟨p, hp, below⟩, q, hq, above⟩ := h
  refine ⟨⟨-q, image q hq, ?_⟩, -p, image p hp, ?_⟩
  · rw [Rat.cast_neg]
    exact neg_le_neg above
  · rw [Rat.cast_neg]
    exact neg_le_neg below

theorem add (hr : Brackets A r) (hs : Brackets B s) (image : ∀ p ∈ A, ∀ q ∈ B, p + q ∈ C) :
    Brackets C (r + s) := by
  obtain ⟨⟨p, hp, below⟩, q, hq, above⟩ := hr
  obtain ⟨⟨p', hp', below'⟩, q', hq', above'⟩ := hs
  refine ⟨⟨p + p', image p hp p' hp', ?_⟩, q + q', image q hq q' hq', ?_⟩
  · rw [Rat.cast_add]
    exact add_le_add below below'
  · rw [Rat.cast_add]
    exact add_le_add above above'

private theorem mul_real (h : Brackets A r) (t : ℝ) :
    (∃ p ∈ A, (p : ℝ) * t ≤ r * t) ∧ ∃ q ∈ A, r * t ≤ (q : ℝ) * t := by
  obtain ⟨⟨p, hp, below⟩, q, hq, above⟩ := h
  rcases le_total 0 t with nonneg | nonpos
  · exact ⟨⟨p, hp, mul_le_mul_of_nonneg_right below nonneg⟩,
      q, hq, mul_le_mul_of_nonneg_right above nonneg⟩
  · exact ⟨⟨q, hq, mul_le_mul_of_nonpos_right above nonpos⟩,
      p, hp, mul_le_mul_of_nonpos_right below nonpos⟩

theorem mul (hr : Brackets A r) (hs : Brackets B s) (image : ∀ p ∈ A, ∀ q ∈ B, p * q ∈ C) :
    Brackets C (r * s) := by
  obtain ⟨⟨p, hp, _⟩, q, hq, _⟩ := hr.mul_real s
  obtain ⟨⟨p', hp', below'⟩, -⟩ := hs.mul_real p
  obtain ⟨-, q', hq', above'⟩ := hs.mul_real q
  refine ⟨⟨p * p', image p hp p' hp', ?_⟩, q * q', image q hq q' hq', ?_⟩
  · calc ((p * p' : Rat) : ℝ) = p' * p := by rw [Rat.cast_mul, mul_comm]
      _ ≤ s * p := below'
      _ ≤ r * s := by rwa [mul_comm s]
  · calc r * s ≤ s * q := by rwa [mul_comm s]
      _ ≤ q' * q := above'
      _ = ((q * q' : Rat) : ℝ) := by rw [Rat.cast_mul, mul_comm]

theorem inv (h : Brackets A r) (sign : (∀ p ∈ A, 0 < p) ∨ ∀ p ∈ A, p < 0)
    (image : ∀ p ∈ A, p⁻¹ ∈ C) : Brackets C r⁻¹ := by
  obtain ⟨⟨p, hp, below⟩, q, hq, above⟩ := h
  refine ⟨⟨q⁻¹, image q hq, ?_⟩, p⁻¹, image p hp, ?_⟩
  · rw [Rat.cast_inv]
    rcases sign with positive | negative
    · exact inv_anti₀ ((Rat.cast_pos.2 (positive p hp)).trans_le below) above
    · have neg : (q : ℝ) < 0 := Rat.cast_lt_zero.2 (negative q hq)
      exact (inv_le_inv_of_neg neg (above.trans_lt neg)).2 above
  · rw [Rat.cast_inv]
    rcases sign with positive | negative
    · exact inv_anti₀ (Rat.cast_pos.2 (positive p hp)) below
    · have neg : (q : ℝ) < 0 := Rat.cast_lt_zero.2 (negative q hq)
      have negp : (p : ℝ) < 0 := Rat.cast_lt_zero.2 (negative p hp)
      exact (inv_le_inv_of_neg (above.trans_lt neg) negp).2 below

private theorem pow_of_nonneg (h : Brackets A r) (connected : A.OrdConnected) (nonneg : 0 ≤ r)
    (n : ℕ) (image : ∀ p ∈ A, p ^ n ∈ C) : Brackets C (r ^ n) := by
  obtain ⟨⟨p, hp, below⟩, q, hq, above⟩ := h
  -- below zero the bound is moved to zero, which is then an element
  have nonneg' : 0 ≤ q := Rat.cast_nonneg.1 (nonneg.trans above)
  have below' : ((max p 0 : Rat) : ℝ) ≤ r := by
    rw [Rat.cast_max, Rat.cast_zero]
    exact max_le below nonneg
  have mem : max p 0 ∈ A :=
    connected.out hp hq ⟨le_max_left p 0, max_le (Rat.cast_le.1 (below.trans above)) nonneg'⟩
  refine ⟨⟨max p 0 ^ n, image _ mem, ?_⟩, q ^ n, image q hq, ?_⟩
  · rw [Rat.cast_pow]
    exact pow_le_pow_left₀ (Rat.cast_nonneg.2 (le_max_right p 0)) below' n
  · rw [Rat.cast_pow]
    exact pow_le_pow_left₀ nonneg above n

theorem pow (h : Brackets A r) (connected : A.OrdConnected) (n : ℕ)
    (image : ∀ p ∈ A, p ^ n ∈ C) : Brackets C (r ^ n) := by
  rcases Nat.even_or_odd n with even | odd
  · rcases le_total 0 r with nonneg | nonpos
    · exact h.pow_of_nonneg connected nonneg n image
    · have flipped : Brackets (.preimage Neg.neg A) (-r) := h.neg fun p hp => by simpa using hp
      rw [← even.neg_pow]
      refine flipped.pow_of_nonneg (connected.preimage_anti fun _ _ => neg_le_neg)
        (neg_nonneg.2 nonpos) n fun p hp => ?_
      rw [← even.neg_pow]
      exact image (-p) hp
  · obtain ⟨⟨p, hp, below⟩, q, hq, above⟩ := h
    refine ⟨⟨p ^ n, image p hp, ?_⟩, q ^ n, image q hq, ?_⟩
    · rw [Rat.cast_pow]
      exact odd.pow_le_pow.2 below
    · rw [Rat.cast_pow]
      exact odd.pow_le_pow.2 above

end Brackets

/-! ### Roots of numbers -/

namespace Number

variable {x : Number} {q : Rat}

section

variable (directed : x.kind ≠ .double) (value : x.value = .fin q) (nonneg : 0 ≤ q)
include directed value nonneg

theorem sqrt?_eq (r : Rounding) : ∃ bits p, x.sqrt? r = some ⟨x.kind, .fin (sqrt bits r p)⟩ ∧
    0 ≤ p ∧ (p = q ∨ p = round 128 r q) := by
  unfold sqrt?
  cases kind : x.kind with
  | double => exact absurd kind directed
  | rational =>
    have nonneg' := round_nonneg 128 r nonneg
    exact ⟨128, _, by simp [value, Kind.round, sqrtTo?, nonneg'.not_gt], nonneg', .inr rfl⟩
  | binary bits => exact ⟨bits, q, by simp [value, sqrtTo?, nonneg.not_gt], nonneg, .inl rfl⟩

theorem sqrt?_down : ∃ l, x.sqrt? .down = some ⟨x.kind, .fin l⟩ ∧ 0 ≤ l ∧ l * l ≤ q := by
  obtain ⟨bits, p, run, nonneg', same⟩ := sqrt?_eq directed value nonneg .down
  refine ⟨_, run, sqrt_nonneg bits .down, (sqrt_down_sq_le bits nonneg').trans ?_⟩
  rcases same with rfl | rfl
  exacts [le_rfl, round_down_le 128 q]

theorem sqrt?_up : ∃ u, x.sqrt? .up = some ⟨x.kind, .fin u⟩ ∧ 0 ≤ u ∧ q ≤ u * u := by
  obtain ⟨bits, p, run, nonneg', same⟩ := sqrt?_eq directed value nonneg .up
  refine ⟨_, run, sqrt_nonneg bits .up, le_trans ?_ (le_sqrt_up_sq bits nonneg')⟩
  rcases same with rfl | rfl
  exacts [le_rfl, le_round_up 128 q]

end

theorem sqrt?_posInf (directed : x.kind ≠ .double) (value : x.value = .posInf) (r : Rounding) :
    x.sqrt? r = some ⟨x.kind, .posInf⟩ := by
  unfold sqrt?
  cases kind : x.kind with
  | double => exact absurd kind directed
  | _ => simp [value, Kind.round, sqrtTo?]

end Number

namespace Interval

variable {a b e i : Interval} {r s : ℝ} {q : Rat}

def Encloses (i : Interval) (r : ℝ) : Prop := Brackets {q | i.Has q} r

theorem ordConnected (i : Interval) : {q | i.Has q}.OrdConnected :=
  ⟨fun _ hp _ hq _ between => ⟨hp.1.trans (ExtRat.fin_le_fin.2 between.1),
    (ExtRat.fin_le_fin.2 between.2).trans hq.2⟩⟩

theorem encloses_ratCast : i.Encloses (q : ℝ) ↔ i.Has q :=
  ⟨fun h => h.mem i.ordConnected, fun h => .of_mem h⟩

theorem encloses_top (k : Kind) (r : ℝ) : (top k).Encloses r :=
  (Brackets.univ r).mono fun _ _ => ⟨ExtRat.negInf_le _, ExtRat.le_posInf _⟩

theorem encloses_of_bounds (lower : ∃ p : Rat, i.lo.value ≤ .fin p ∧ (p : ℝ) ≤ r)
    (upper : ∃ q : Rat, .fin q ≤ i.hi.value ∧ r ≤ (q : ℝ)) : i.Encloses r := by
  obtain ⟨p, lo, below⟩ := lower
  obtain ⟨q, hi, above⟩ := upper
  have between : ExtRat.fin p ≤ .fin q := ExtRat.fin_le_fin.2 (Rat.cast_le.1 (below.trans above))
  exact ⟨⟨p, ⟨lo, between.trans hi⟩, below⟩, q, ⟨lo.trans between, hi⟩, above⟩

theorem Encloses.lower (h : i.Encloses r) : ∃ p : Rat, i.lo.value ≤ .fin p ∧ (p : ℝ) ≤ r := by
  obtain ⟨⟨p, hp, below⟩, -⟩ := h
  exact ⟨p, hp.1, below⟩

theorem Encloses.upper (h : i.Encloses r) : ∃ q : Rat, .fin q ≤ i.hi.value ∧ r ≤ (q : ℝ) := by
  obtain ⟨-, q, hq, above⟩ := h
  exact ⟨q, hq.2, above⟩

theorem Encloses.not_isEmpty (h : i.Encloses r) : i.isEmpty = false := by
  obtain ⟨⟨p, hp, -⟩, -⟩ := h
  exact hp.not_isEmpty

theorem Encloses.eq_zero (h : i.Encloses r) (isZero : i.isZero = true) : r = 0 := by
  obtain ⟨⟨p, hp, below⟩, q, hq, above⟩ := h
  rw [(has_of_isZero isZero).1 hp, Rat.cast_zero] at below
  rw [(has_of_isZero isZero).1 hq, Rat.cast_zero] at above
  exact le_antisymm above below

/-! ### Field operations -/

theorem Encloses.neg (h : i.Encloses r) : i.neg.Encloses (-r) :=
  Brackets.neg h fun p hp => has_neg.2 (by rwa [neg_neg])

section

variable (lo : a.lo.kind ≠ .double) (hi : a.hi.kind ≠ .double) (hr : a.Encloses r)
  (hs : b.Encloses s)
include lo hi hr hs

theorem Encloses.add : (a.add b).Encloses (r + s) :=
  Brackets.add hr hs fun _ hp _ hq => .add lo hi hp hq

theorem Encloses.mul : (a.mul b).Encloses (r * s) :=
  Brackets.mul hr hs fun _ hp _ hq => .mul lo hi hp hq

theorem Encloses.div (nonzero : s ≠ 0) : (a.div b).Encloses (r / s) := by
  by_cases zero : b.containsZero = true
  · have notZero : b.isZero = false := Bool.eq_false_iff.2 (mt hs.eq_zero nonzero)
    have everything : a.div b = top a.kind := by
      unfold Interval.div
      simp [hr.not_isEmpty, hs.not_isEmpty, notZero, zero]
    rw [everything]
    exact encloses_top a.kind _
  · have sign : (∀ q ∈ {q | b.Has q}, 0 < q) ∨ ∀ q ∈ {q | b.Has q}, q < 0 := by
      refine (apart_of_not_containsZero (Bool.eq_false_iff.2 zero)).imp ?_ ?_
      · exact fun positive q hq => ExtRat.fin_lt_fin.1 (positive.trans_le hq.1)
      · exact fun negative q hq => ExtRat.fin_lt_fin.1 (hq.2.trans_lt negative)
    refine Brackets.mul hr
      (hs.inv sign (C := {q | ∃ p, b.Has p ∧ p ≠ 0 ∧ q = p⁻¹}) fun p hp => ⟨p, hp, ?_, rfl⟩) ?_
    · exact sign.elim (fun h => (h p hp).ne') fun h => (h p hp).ne
    · rintro p hp - ⟨q, hq, ne, rfl⟩
      exact hp.div lo hi hq ne

end

theorem Encloses.inv {k : Kind} (outward : k.IsOutward) (h : b.Encloses s) (nonzero : s ≠ 0) :
    ((point (.one k)).div b).Encloses s⁻¹ := by
  have one : (point (.one k)).Encloses ((1 : Rat) : ℝ) :=
    encloses_ratCast.2 ⟨outward.unit.le, outward.unit.ge⟩
  have quotient := one.div outward.directed outward.directed h nonzero
  rwa [Rat.cast_one, one_div] at quotient

theorem Encloses.pow (lo : a.lo.kind.IsOutward) (hi : a.hi.kind.IsOutward) (hr : a.Encloses r)
    (hs : e.Encloses s) : (a.pow e).Encloses (r ^ s) := by
  cases exponent : exponent? e with
  | none =>
    have everything : a.pow e = top a.kind := by
      unfold Interval.pow
      simp [hr.not_isEmpty, hs.not_isEmpty, exponent]
    rw [everything]
    exact encloses_top a.kind _
  | some n =>
    have natural : s = n := by
      obtain ⟨⟨p, hp, below⟩, q, hq, above⟩ := hs
      rw [(has_exponent exponent).1 hp] at below
      rw [(has_exponent exponent).1 hq] at above
      exact le_antisymm above below
    rw [natural, Real.rpow_natCast]
    exact Brackets.pow hr a.ordConnected n fun p hp => hp.pow lo hi exponent

/-! ### Square roots -/

theorem Encloses.between_bounds (ha : a.Encloses r) (hb : b.Encloses r) :
    Interval.Encloses ⟨a.lo.max b.lo, a.hi.min b.hi⟩ r := by
  obtain ⟨p, lo, below⟩ := ha.lower
  obtain ⟨p', lo', below'⟩ := hb.lower
  obtain ⟨q, hi, above⟩ := ha.upper
  obtain ⟨q', hi', above'⟩ := hb.upper
  apply encloses_of_bounds
  · refine ⟨Max.max p p', ?_, ?_⟩
    · rw [value_max, ExtRat.fin_max]
      exact max_le_max lo lo'
    · rw [Rat.cast_max]
      exact max_le below below'
  · refine ⟨Min.min q q', ?_, ?_⟩
    · rw [value_min, ExtRat.fin_min]
      exact min_le_min hi hi'
    · rw [Rat.cast_min]
      exact le_min above above'

private theorem encloses_sqrt_of_nonneg (lo : i.lo.kind ≠ .double) (hi : i.hi.kind ≠ .double)
    (nonneg : .fin 0 ≤ i.lo.value) (h : i.Encloses r) :
    ∃ l u, i.lo.sqrt? .down = some l ∧ i.hi.sqrt? .up = some u ∧
      Interval.Encloses ⟨l, u⟩ (√r) := by
  obtain ⟨p, low, below⟩ := h.lower
  obtain ⟨q, high, above⟩ := h.upper
  obtain ⟨l, value⟩ := ExtRat.exists_eq_fin nonneg low
  rw [value, ExtRat.fin_le_fin] at nonneg low
  obtain ⟨root, down, -, square⟩ := sqrt?_down lo value nonneg
  have lower : root ≤ √r := by
    refine Real.le_sqrt_of_sq_le ?_
    rw [pow_two, ← Rat.cast_mul]
    exact (Rat.cast_le.2 (square.trans low)).trans below
  cases top : i.hi.value with
  | negInf => exact absurd (top ▸ high) ExtRat.not_fin_le_negInf
  | posInf =>
    obtain ⟨t, -, upper⟩ := (Brackets.univ (√r)).2
    exact ⟨_, _, down, sqrt?_posInf hi top .up,
      encloses_of_bounds ⟨root, le_rfl, lower⟩ ⟨t, ExtRat.le_posInf _, upper⟩⟩
  | fin u =>
    rw [top, ExtRat.fin_le_fin] at high
    have order : l ≤ u := low.trans ((Rat.cast_le.1 (below.trans above)).trans high)
    obtain ⟨root', up, nonneg', square'⟩ := sqrt?_up hi top (nonneg.trans order)
    have upper : √r ≤ root' := by
      refine Real.sqrt_le_iff.2 ⟨Rat.cast_nonneg.2 nonneg', ?_⟩
      rw [pow_two, ← Rat.cast_mul]
      exact above.trans (Rat.cast_le.2 (high.trans square'))
    exact ⟨_, _, down, up, encloses_of_bounds ⟨root, le_rfl, lower⟩ ⟨root', le_rfl, upper⟩⟩

theorem Encloses.sqrt (lo : a.lo.kind ≠ .double) (hi : a.hi.kind ≠ .double) (h : a.Encloses r)
    (nonneg : 0 ≤ r) : a.sqrt.Encloses (√r) := by
  have nonnegatives : Encloses ⟨.zero a.kind, .infinity a.kind 1⟩ r := by
    obtain ⟨t, -, upper⟩ := (Brackets.univ r).2
    exact encloses_of_bounds ⟨0, le_rfl, by simpa using nonneg⟩ ⟨t, ExtRat.le_posInf _, upper⟩
  have inside := h.between_bounds nonnegatives
  have meetEq : a.meet ⟨.zero a.kind, .infinity a.kind 1⟩ =
      ⟨a.lo.max (.zero a.kind), a.hi.min (.infinity a.kind 1)⟩ :=
    if_neg (Bool.eq_false_iff.1 inside.not_isEmpty)
  have lowKind : (a.lo.max (.zero a.kind)).kind ≠ .double := by
    have kind : (a.lo.max (.zero a.kind)).kind = a.lo.kind := kind_max rfl rfl
    rwa [kind]
  have highKind : (a.hi.min (.infinity a.kind 1)).kind ≠ .double := by
    unfold Number.min
    split
    · exact lo
    · exact hi
  obtain ⟨l, u, down, up, roots⟩ := encloses_sqrt_of_nonneg lowKind highKind
    (by rw [value_max]; exact le_max_right _ _) inside
  unfold Interval.sqrt
  dsimp only
  rwa [meetEq, inside.not_isEmpty, down, up]

end Interval

end Enclosure
