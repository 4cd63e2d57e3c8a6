import Enclosure.Proofs.RealIntervals

/-!
# Truncation, remainders and rounding to integers

The remainder of truncated division lies between zero and the dividend, and its magnitude is below
that of the divisor.
-/

namespace Enclosure

open ExtRat Number

/-! ### Remainders -/

section Remainders

variable {r s t : ℝ}

noncomputable def truncate (t : ℝ) : ℤ := if 0 ≤ t then ⌊t⌋ else ⌈t⌉

noncomputable def remainder (r s : ℝ) : ℝ := r - s * truncate (r / s)

theorem truncate_of_nonneg (nonneg : 0 ≤ t) : truncate t = ⌊t⌋ := if_pos nonneg

theorem truncate_of_nonpos (nonpos : t ≤ 0) : truncate t = ⌈t⌉ := by
  rcases nonpos.lt_or_eq with negative | zero
  · exact if_neg (not_le.2 negative)
  · rw [zero, truncate_of_nonneg le_rfl, Int.floor_zero, Int.ceil_zero]

theorem sub_truncate_of_nonneg (nonneg : 0 ≤ t) :
    0 ≤ t - truncate t ∧ t - truncate t ≤ t ∧ t - truncate t < 1 := by
  have floor_nonneg : (0 : ℝ) ≤ ⌊t⌋ := by exact_mod_cast Int.floor_nonneg.2 nonneg
  have below := Int.floor_le t
  have above := Int.lt_floor_add_one t
  rw [truncate_of_nonneg nonneg]
  exact ⟨by linarith, by linarith, by linarith⟩

theorem truncate_neg (t : ℝ) : truncate (-t) = -truncate t := by
  rcases le_total 0 t with nonneg | nonpos
  · rw [truncate_of_nonneg nonneg, truncate_of_nonpos (neg_nonpos.2 nonneg), Int.ceil_neg]
  · rw [truncate_of_nonpos nonpos, truncate_of_nonneg (neg_nonneg.2 nonpos), Int.floor_neg]

theorem remainder_neg_right (r s : ℝ) : remainder r (-s) = remainder r s := by
  unfold remainder
  rw [div_neg, truncate_neg]
  push_cast
  ring

theorem remainder_neg_left (r s : ℝ) : remainder (-r) s = -remainder r s := by
  unfold remainder
  rw [neg_div, truncate_neg]
  push_cast
  ring

theorem remainder_abs_right (r s : ℝ) : remainder r |s| = remainder r s := by
  rcases abs_choice s with same | flipped
  · rw [same]
  · rw [flipped, remainder_neg_right]

theorem remainder_of_nonneg (nonneg : 0 ≤ r) (nonzero : s ≠ 0) :
    0 ≤ remainder r s ∧ remainder r s ≤ r ∧ remainder r s < |s| := by
  have pos : 0 < |s| := abs_pos.2 nonzero
  have scaled : remainder r s = |s| * (r / |s| - truncate (r / |s|)) := by
    rw [← remainder_abs_right, remainder, mul_sub, mul_div_cancel₀ r pos.ne']
  obtain ⟨low, high, less⟩ := sub_truncate_of_nonneg (div_nonneg nonneg pos.le)
  rw [scaled]
  refine ⟨mul_nonneg pos.le low, ?_, mul_lt_of_lt_one_right pos less⟩
  calc |s| * (r / |s| - truncate (r / |s|)) ≤ |s| * (r / |s|) :=
        mul_le_mul_of_nonneg_left high pos.le
    _ = r := mul_div_cancel₀ r pos.ne'

theorem remainder_between (r : ℝ) (nonzero : s ≠ 0) :
    min r 0 ≤ remainder r s ∧ remainder r s ≤ max r 0 ∧ |remainder r s| < |s| := by
  rcases le_total 0 r with nonneg | nonpos
  · obtain ⟨low, high, less⟩ := remainder_of_nonneg nonneg nonzero
    exact ⟨(min_le_right r 0).trans low, high.trans (le_max_left r 0), by rwa [abs_of_nonneg low]⟩
  · obtain ⟨low, high, less⟩ := remainder_of_nonneg (neg_nonneg.2 nonpos) nonzero
    rw [remainder_neg_left] at low high less
    have nonpos' : remainder r s ≤ 0 := neg_nonneg.1 low
    exact ⟨(min_le_left r 0).trans (neg_le_neg_iff.1 high), nonpos'.trans (le_max_right r 0),
      by rwa [abs_of_nonpos nonpos']⟩

theorem remainder_eq_self (less : |r| < |s|) : remainder r s = r := by
  have quotient : |(r / |s|)| < 1 := by
    rw [abs_div, abs_abs]
    exact (div_lt_one ((abs_nonneg r).trans_lt less)).2 less
  have zero : truncate (r / |s|) = 0 := by
    obtain ⟨below, above⟩ := abs_lt.1 quotient
    unfold truncate
    split
    · rename_i nonneg
      exact Int.floor_eq_zero_iff.2 ⟨nonneg, above⟩
    · rename_i negative
      exact Int.ceil_eq_zero_iff.2 ⟨below, (not_le.1 negative).le⟩
  rw [← remainder_abs_right, remainder, zero]
  simp

end Remainders

namespace Interval

variable {a b : Interval} {r s t : ℝ} {p q : Rat}

theorem Encloses.abs_between (h : b.Encloses s) (apart : b.containsZero = false) :
    (∃ c : Rat, (b.lo.abs.min b.hi.abs).value ≤ .fin c ∧ (c : ℝ) ≤ |s|) ∧
      ∃ d : Rat, .fin d ≤ (b.lo.abs.max b.hi.abs).value ∧ |s| ≤ (d : ℝ) := by
  obtain ⟨p, lo, below⟩ := h.lower
  obtain ⟨q, hi, above⟩ := h.upper
  rw [value_min, value_max, value_abs, value_abs]
  rcases apart_of_not_containsZero apart with positive | negative
  · have pos : 0 < p := fin_lt_fin.1 (positive.trans_le lo)
    have posReal : 0 < s := (Rat.cast_pos.2 pos).trans_le below
    rw [abs_of_pos posReal]
    refine ⟨⟨p, (min_le_left _ _).trans (max_le lo ?_), below⟩,
      q, hi.trans ((le_max_left _ _).trans (le_max_right _ _)), above⟩
    refine neg_le_fin.2 (le_trans ?_ positive.le)
    exact fin_le_fin.2 (neg_nonpos.2 pos.le)
  · have neg : q < 0 := fin_lt_fin.1 (hi.trans_lt negative)
    have negReal : s < 0 := above.trans_lt (Rat.cast_lt_zero.2 neg)
    rw [abs_of_neg negReal]
    refine ⟨⟨-q, (min_le_right _ _).trans (max_le ?_ (neg_le_fin.2 (by simpa using hi))),
      by simpa using above⟩, -p, ?_, by simpa using below⟩
    · exact negative.le.trans (fin_le_fin.2 (neg_nonneg.2 neg.le))
    · exact (fin_le_neg.2 (by simpa using lo)).trans ((le_max_right _ _).trans (le_max_left _ _))

private theorem Encloses.remainder_lower (h : a.Encloses r) (nonpos : a.lo.value ≤ .fin 0)
    {most : Number} {d : Rat} (bound : .fin d ≤ most.value) (floor : min r 0 ≤ t)
    (below : -(d : ℝ) ≤ t) : ∃ l : Rat, (a.lo.max most.neg).value ≤ .fin l ∧ (l : ℝ) ≤ t := by
  obtain ⟨p, lo, le⟩ := h.lower
  refine ⟨max (min p 0) (-d), ?_, ?_⟩
  · rw [value_max, fin_max, fin_min]
    exact max_le_max (le_min lo nonpos) (neg_le_neg bound)
  · rw [Rat.cast_max, Rat.cast_min, Rat.cast_zero, Rat.cast_neg]
    exact max_le ((min_le_min_right 0 le).trans floor) below

private theorem Encloses.remainder_upper (h : a.Encloses r) (nonneg : .fin 0 ≤ a.hi.value)
    {most : Number} {d : Rat} (bound : .fin d ≤ most.value) (ceiling : t ≤ max r 0)
    (above : t ≤ d) : ∃ u : Rat, .fin u ≤ (a.hi.min most).value ∧ t ≤ (u : ℝ) := by
  obtain ⟨q, hi, le⟩ := h.upper
  refine ⟨min (max q 0) d, ?_, ?_⟩
  · rw [value_min, fin_min, fin_max]
    exact min_le_min (max_le hi nonneg) bound
  · rw [Rat.cast_min, Rat.cast_max, Rat.cast_zero]
    exact le_min (ceiling.trans (max_le_max_right 0 le)) above

theorem Encloses.modulo (hr : a.Encloses r) (hs : b.Encloses s) (nonzero : s ≠ 0) :
    (a.modulo b).Encloses (remainder r s) := by
  unfold Interval.modulo
  dsimp only
  rw [hr.not_isEmpty, hs.not_isEmpty, Bool.or_self, if_neg Bool.false_ne_true]
  split
  · exact encloses_top a.kind _
  rename_i notZero
  obtain ⟨⟨c, least, _⟩, d, most, high⟩ := hs.abs_between (Bool.eq_false_iff.2 notZero)
  obtain ⟨floor, ceiling, less⟩ := remainder_between r nonzero
  obtain ⟨below, above⟩ := abs_le.1 (less.le.trans high)
  obtain ⟨p, lo, hp⟩ := hr.lower
  obtain ⟨q, hi, hq⟩ := hr.upper
  have order : fin p ≤ .fin q := fin_le_fin.2 (Rat.cast_le.1 (hp.trans hq))
  split
  · rename_i nonneg
    have zero_le : .fin 0 ≤ a.lo.value := sign_nonneg.1 nonneg
    have r_nonneg : 0 ≤ r :=
      (Rat.cast_nonneg.2 (fin_le_fin.1 (zero_le.trans lo))).trans hp
    split
    · -- every dividend is below every divisor
      rename_i small
      have cut : (q : ℝ) < c :=
        Rat.cast_lt.2 (fin_lt_fin.1 (hi.trans_lt (lt_of_lt_of_le small least)))
      rw [remainder_eq_self (by rw [abs_of_nonneg r_nonneg]; linarith)]
      exact hr
    · rw [min_eq_right r_nonneg] at floor
      exact encloses_of_bounds ⟨0, le_rfl, by simpa using floor⟩
        (hr.remainder_upper (zero_le.trans (lo.trans (order.trans hi))) most ceiling above)
  split
  · rename_i nonpos
    have le_zero : a.hi.value ≤ .fin 0 := sign_nonpos.1 nonpos
    have r_nonpos : r ≤ 0 :=
      hq.trans (Rat.cast_nonpos.2 (fin_le_fin.1 (hi.trans le_zero)))
    split
    · rename_i small
      have cut : fin (-c) < .fin p :=
        (fin_le_neg.2 (by simpa using least)).trans_lt (lt_of_lt_of_le small lo)
      have cutReal : -(c : ℝ) < p := by exact_mod_cast fin_lt_fin.1 cut
      rw [remainder_eq_self (by rw [abs_of_nonpos r_nonpos]; linarith)]
      exact hr
    · rw [max_eq_right r_nonpos] at ceiling
      exact encloses_of_bounds
        (hr.remainder_lower (lo.trans (order.trans (hi.trans le_zero))) most floor below)
        ⟨0, le_rfl, by simpa using ceiling⟩
  · rename_i negative positive
    exact encloses_of_bounds
      (hr.remainder_lower (sign_nonpos.1 (not_le.1 negative).le) most floor below)
      (hr.remainder_upper (sign_nonneg.1 (not_le.1 positive).le) most ceiling above)

end Interval

/-! ### Rounding to integers -/

def RoundingPolicy.Rounds (policy : RoundingPolicy) (r : ℝ) (n : ℤ) : Prop :=
  match policy with
  | .up => n = ⌈r⌉
  | .down => n = ⌊r⌋
  | .zero => n = truncate r
  | .nearest => |r - n| ≤ 1 / 2
  | .varying => n = ⌊r⌋ ∨ n = ⌈r⌉
  | .unknown => n = ⌊r⌋ ∨ n = ⌈r⌉

namespace ExtRat

variable {x : ExtRat} {p : Rat} {r : ℝ} {n : ℤ}

theorem floor_le_int (bound : x ≤ fin p) (below : (p : ℝ) ≤ r) (h : ⌊r⌋ ≤ n) : x.floor ≤ fin n := by
  cases x with
  | negInf => exact negInf_le _
  | posInf => exact absurd bound not_posInf_le_fin
  | fin l =>
    refine fin_le_fin.2 (Int.cast_le.2 (le_trans ?_ h))
    have real : l ≤ r := (Rat.cast_le.2 (fin_le_fin.1 bound)).trans below
    exact (Rat.floor_cast l).symm.le.trans (Int.floor_le_floor real)

theorem ceil_le_int (bound : x ≤ fin p) (below : (p : ℝ) ≤ r) (h : ⌈r⌉ ≤ n) : x.ceil ≤ fin n := by
  have real : (p : ℝ) ≤ n := below.trans (Int.ceil_le.1 h)
  have above : p ≤ n := by exact_mod_cast real
  exact (ceil_le_fin (Rat.den_intCast n)).2 (bound.trans (fin_le_fin.2 above))

theorem int_le_floor (bound : fin p ≤ x) (above : r ≤ (p : ℝ)) (h : n ≤ ⌊r⌋) : fin n ≤ x.floor := by
  have real : (n : ℝ) ≤ p := (Int.le_floor.1 h).trans above
  have below : (n : Rat) ≤ p := by exact_mod_cast real
  exact (fin_le_floor (Rat.den_intCast n)).2 ((fin_le_fin.2 below).trans bound)

theorem int_le_ceil (bound : fin p ≤ x) (above : r ≤ (p : ℝ)) (h : n ≤ ⌈r⌉) : fin n ≤ x.ceil := by
  cases x with
  | negInf => exact absurd bound not_fin_le_negInf
  | posInf => exact le_posInf _
  | fin u =>
    refine fin_le_fin.2 (Int.cast_le.2 (h.trans (Int.ceil_le.2 ?_)))
    calc r ≤ u := above.trans (Rat.cast_le.2 (fin_le_fin.1 bound))
      _ ≤ u.ceil := by exact_mod_cast Rat.le_ceil

end ExtRat

namespace Number

variable {k : Kind} {x : Number}

theorem value_floor (outward : k.IsOutward) (fits : x.Fits k) : x.floor.value = x.value.floor := by
  rw [floor, fits.kind]
  exact outward.round_eq (fits.value.floor outward.directed) .down

theorem value_ceil (outward : k.IsOutward) (fits : x.Fits k) : x.ceil.value = x.value.ceil := by
  rw [ceil, fits.kind]
  exact outward.round_eq (fits.value.ceil outward.directed) .up

end Number

namespace Interval

variable {i : Interval} {k : Kind} {r : ℝ} {n : ℤ} {p q : Rat} {x : Number}

theorem Encloses.mapBounds {lower upper : Number → Number} (h : i.Encloses r)
    (low : ∀ p : Rat, i.lo.value ≤ .fin p → (p : ℝ) ≤ r → (lower i.lo).value ≤ .fin n)
    (high : ∀ q : Rat, .fin q ≤ i.hi.value → r ≤ (q : ℝ) → .fin n ≤ (upper i.hi).value) :
    (i.mapBounds lower upper).Encloses n := by
  obtain ⟨p, lo, below⟩ := h.lower
  obtain ⟨q, hi, above⟩ := h.upper
  rw [Interval.mapBounds, h.not_isEmpty]
  exact encloses_of_bounds ⟨n, low p lo below, by simp⟩ ⟨n, high q hi above, by simp⟩

theorem truncate_le_int (outward : k.IsOutward) (fits : x.Fits k) (bound : x.value ≤ .fin p)
    (below : (p : ℝ) ≤ r) : (Interval.truncate x).value ≤ .fin (Enclosure.truncate r) := by
  unfold truncate
  split
  · rename_i nonneg
    have p_nonneg : 0 ≤ p := fin_le_fin.1 ((sign_nonneg.1 nonneg).trans bound)
    have r_nonneg : 0 ≤ r := (Rat.cast_nonneg.2 p_nonneg).trans below
    rw [value_floor outward fits, truncate_of_nonneg r_nonneg]
    exact floor_le_int bound below le_rfl
  · rename_i negative
    have le_zero : x.value ≤ .fin 0 := sign_nonpos.1 (not_le.1 negative).le
    rw [value_ceil outward fits]
    rcases le_total 0 r with nonneg | nonpos
    · rw [truncate_of_nonneg nonneg]
      exact ceil_le_int le_zero Rat.cast_zero.le
        (by rw [Int.ceil_zero]; exact Int.floor_nonneg.2 nonneg)
    · rw [truncate_of_nonpos nonpos]
      exact ceil_le_int bound below le_rfl

theorem int_le_truncate (outward : k.IsOutward) (fits : x.Fits k) (bound : .fin q ≤ x.value)
    (above : r ≤ (q : ℝ)) : .fin (Enclosure.truncate r) ≤ (Interval.truncate x).value := by
  unfold truncate
  split
  · rename_i nonneg
    have zero_le : .fin 0 ≤ x.value := sign_nonneg.1 nonneg
    rw [value_floor outward fits]
    rcases le_total 0 r with nonneg | nonpos
    · rw [truncate_of_nonneg nonneg]
      exact int_le_floor bound above le_rfl
    · rw [truncate_of_nonpos nonpos]
      exact int_le_floor zero_le Rat.cast_zero.ge
        (by rw [Int.floor_zero]; exact Int.ceil_nonpos.2 nonpos)
  · rename_i negative
    have q_nonpos : q ≤ 0 := fin_le_fin.1 (bound.trans (sign_nonpos.1 (not_le.1 negative).le))
    rw [value_ceil outward fits, truncate_of_nonpos (above.trans (Rat.cast_nonpos.2 q_nonpos))]
    exact int_le_ceil bound above le_rfl

theorem nearestBelow_le_int (directed : k ≠ .double) (bound : x.value ≤ .fin p)
    (below : (p : ℝ) ≤ r) (near : |r - n| ≤ 1 / 2) : (nearestBelow k x).value ≤ .fin n := by
  unfold nearestBelow
  cases value : x.value with
  | negInf => cases k <;> exact negInf_le _
  | posInf => exact absurd (value ▸ bound) not_posInf_le_fin
  | fin l =>
    have real : l ≤ r := (Rat.cast_le.2 (fin_le_fin.1 (value ▸ bound))).trans below
    have half : l - mkRat 1 2 ≤ n := by
      rw [Rat.mkRat_eq_div, ← Rat.cast_le (K := ℝ)]
      push_cast
      linarith [(abs_le.1 near).2]
    exact (Kind.round_down_le directed).trans
      (fin_le_fin.2 (Int.cast_le.2 (Rat.ceil_le_iff.2 half)))

theorem int_le_nearestAbove (directed : k ≠ .double) (bound : .fin q ≤ x.value)
    (above : r ≤ (q : ℝ)) (near : |r - n| ≤ 1 / 2) : .fin n ≤ (nearestAbove k x).value := by
  unfold nearestAbove
  cases value : x.value with
  | negInf => exact absurd (value ▸ bound) not_fin_le_negInf
  | posInf => cases k <;> exact le_posInf _
  | fin u =>
    have real : r ≤ u := above.trans (Rat.cast_le.2 (fin_le_fin.1 (value ▸ bound)))
    have half : n ≤ u + mkRat 1 2 := by
      rw [Rat.mkRat_eq_div, ← Rat.cast_le (K := ℝ)]
      push_cast
      linarith [(abs_le.1 near).1]
    exact (fin_le_fin.2 (Int.cast_le.2 (Rat.le_floor_iff.2 half))).trans (Kind.le_round_up directed)

private theorem Encloses.outward (outward : k.IsOutward) (fits : i.Fits k) (h : i.Encloses r)
    (low : ⌊r⌋ ≤ n) (high : n ≤ ⌈r⌉) : (i.mapBounds floor ceil).Encloses n := by
  apply h.mapBounds
  · intro p lo below
    rw [value_floor outward fits.lo]
    exact floor_le_int lo below low
  · intro q hi above
    rw [value_ceil outward fits.hi]
    exact int_le_ceil hi above high

theorem Encloses.roundInteger {policy : RoundingPolicy} (outward : k.IsOutward) (fits : i.Fits k)
    (h : i.Encloses r) (rounds : policy.Rounds r n) : (i.roundInteger policy).Encloses n := by
  unfold Interval.roundInteger
  cases policy with
  | up =>
    apply h.mapBounds
    · intro p lo below
      rw [value_ceil outward fits.lo]
      exact ceil_le_int lo below rounds.ge
    · intro q hi above
      rw [value_ceil outward fits.hi]
      exact int_le_ceil hi above rounds.le
  | down =>
    apply h.mapBounds
    · intro p lo below
      rw [value_floor outward fits.lo]
      exact floor_le_int lo below rounds.ge
    · intro q hi above
      rw [value_floor outward fits.hi]
      exact int_le_floor hi above rounds.le
  | zero =>
    obtain rfl : n = Enclosure.truncate r := rounds
    apply h.mapBounds
    · intro p lo below
      exact truncate_le_int outward fits.lo lo below
    · intro q hi above
      exact int_le_truncate outward fits.hi hi above
  | nearest =>
    rw [kind, fits.lo.kind]
    apply h.mapBounds
    · intro p lo below
      exact nearestBelow_le_int outward.directed lo below rounds
    · intro q hi above
      exact int_le_nearestAbove outward.directed hi above rounds
  | varying =>
    rcases rounds with rfl | rfl
    · exact h.outward outward fits le_rfl (Int.floor_le_ceil r)
    · exact h.outward outward fits (Int.floor_le_ceil r) le_rfl
  | unknown =>
    rcases rounds with rfl | rfl
    · exact h.outward outward fits le_rfl (Int.floor_le_ceil r)
    · exact h.outward outward fits (Int.floor_le_ceil r) le_rfl

end Interval

end Enclosure
