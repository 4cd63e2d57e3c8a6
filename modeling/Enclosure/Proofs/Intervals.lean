import Enclosure.Expression.LinearForm
import Enclosure.Proofs.Doubles

/-!
# Members of intervals

A rational is a member of an interval if it lies between the bounds, and an interval that is not
empty has at least an infinity between them.
-/

namespace Enclosure

open ExtRat

/-! ### Rounding to a kind -/

namespace Kind

variable {k : Kind} {x : ExtRat}

theorem round_down_le (directed : k ≠ .double) : k.round .down x ≤ x := by
  cases k with
  | double => exact absurd rfl directed
  | rational => cases x <;> exact le_refl _
  | binary bits =>
    cases x with
    | fin q => exact Binary.round_down_le bits q
    | _ => exact le_refl _

theorem le_round_up (directed : k ≠ .double) : x ≤ k.round .up x := by
  cases k with
  | double => exact absurd rfl directed
  | rational => cases x <;> exact le_refl _
  | binary bits =>
    cases x with
    | fin q => exact Binary.le_round_up bits q
    | _ => exact le_refl _

theorem common_ne_double {l : Kind} (directed : k ≠ .double) : k.common l ≠ .double := by
  cases k <;> cases l <;> simp_all [common]

end Kind

/-! ### Numbers -/

namespace Number

variable {a b x : Number} {q : Rat} {r : Rounding} {u v : ExtRat}

/-- A number of kind `double` has the value of a double. -/
def Valid (x : Number) : Prop := x.kind = .double → Double.IsDouble x.value

theorem Valid.neg {x : Number} (valid : x.Valid) : x.neg.Valid := fun double => (valid double).neg

theorem isZero_neg (x : Number) : x.neg.isZero = x.isZero := by
  rw [Bool.eq_iff_iff, isZero, isZero, isZero_iff, isZero_iff, neg]
  cases x.value <;> simp [ExtRat.neg]

theorem isInfinite_neg (x : Number) : x.neg.isInfinite = x.isInfinite := by
  cases value : x.value <;>
    simp [isInfinite, infinitySign, neg, value, ExtRat.neg, ExtRat.infinitySign]

theorem exists_value (finite : x.isInfinite = false) : ∃ q, x.value = .fin q := by
  cases value : x.value with
  | fin q => exact ⟨q, rfl⟩
  | _ => simp [isInfinite, infinitySign, ExtRat.infinitySign, value] at finite

theorem value_convert_rational (x : Number) (r : Rounding) :
    (x.convert .rational r).value = x.value := by
  unfold convert
  split
  · rfl
  · cases x.value <;> simp [ofExt, Kind.round]

@[simp]
theorem kind_convert (x : Number) (k : Kind) (r : Rounding) : (x.convert k r).kind = k := by
  unfold convert
  split
  · assumption
  · rfl

theorem value_min (a b : Number) : (a.min b).value = Min.min a.value b.value := by
  rw [← min_eq]
  change (if b.value < a.value then b else a).value = if b.value < a.value then b.value else a.value
  split <;> rfl

theorem value_max (a b : Number) : (a.max b).value = Max.max a.value b.value := by
  rw [← max_eq]
  change (if a.value < b.value then b else a).value = if a.value < b.value then b.value else a.value
  split <;> rfl

theorem sum?_eq (directed : a.kind ≠ .double) (r : Rounding) :
    a.sum? r b = (a.value.add? b.value).map (ofExt (a.kind.common b.kind) r) := by
  unfold sum?
  split
  · simp_all
  · rfl

theorem value_add {z : ExtRat} (ha : a.kind = .rational) (sum : a.value.add? b.value = some z)
    (r : Rounding) : (a.add r b).value = z := by
  rw [add, sum?_eq (by simp [ha]), sum, ha]
  rfl

section

variable (directed : a.kind ≠ .double)
include directed

theorem add_down_le (ha : a.value ≤ u) (hb : b.value ≤ v) : (a.add .down b).value ≤ u + v := by
  rw [add, sum?_eq directed]
  cases h : a.value.add? b.value with
  | none => exact negInf_le _
  | some z =>
    refine (Kind.round_down_le (Kind.common_ne_double directed)).trans ?_
    rw [← add_of_add? h]
    exact add_le_add ha hb

theorem le_add_up (ha : u ≤ a.value) (hb : v ≤ b.value) : u + v ≤ (a.add .up b).value := by
  rw [add, sum?_eq directed]
  cases h : a.value.add? b.value with
  | none => exact le_posInf _
  | some z =>
    refine le_trans ?_ (Kind.le_round_up (Kind.common_ne_double directed))
    rw [← add_of_add? h]
    exact add_le_add ha hb

theorem mul_eq (r : Rounding) :
    a.mul r b = ofExt (a.kind.common b.kind) r (a.value.mul b.value) := by
  unfold mul
  split
  · simp_all
  · rfl

theorem mul_down_le : (a.mul .down b).value ≤ a.value.mul b.value := by
  rw [mul_eq directed]
  exact Kind.round_down_le (Kind.common_ne_double directed)

theorem le_mul_up : a.value.mul b.value ≤ (a.mul .up b).value := by
  rw [mul_eq directed]
  exact Kind.le_round_up (Kind.common_ne_double directed)

end

theorem kind_add (rational : a.kind = .rational) (r : Rounding) (b : Number) :
    (a.add r b).kind = .rational := by
  rw [add, sum?_eq (by simp [rational]), rational]
  cases a.value.add? b.value <;> rfl

theorem kind_max {k : Kind} (ha : a.kind = k) (hb : b.kind = k) : (a.max b).kind = k := by
  unfold Number.max
  split <;> assumption

end Number

/-! ### Intervals -/

namespace Interval

variable {a b i : Interval} {q : Rat} {u v : ExtRat} {w : Rat}

def Spans (i : Interval) (v : ExtRat) : Prop := i.lo.value ≤ v ∧ v ≤ i.hi.value

def Has (i : Interval) (q : Rat) : Prop := i.Spans (.fin q)

structure Valid (i : Interval) : Prop where
  sameKind : i.hi.kind = i.lo.kind
  validLo : i.lo.Valid
  validHi : i.hi.Valid

/-- Both bounds are rationals. -/
structure IsRational (i : Interval) : Prop where
  lo : i.lo.kind = .rational
  hi : i.hi.kind = .rational

theorem Spans.not_isEmpty (h : i.Spans v) : i.isEmpty = false := by
  have le : i.lo.value ≤ i.hi.value := h.1.trans h.2
  exact decide_eq_false (not_not.2 le)

theorem exists_of_isPoint (point : i.isPoint = true) :
    ∃ q, i.lo.value = .fin q ∧ i.hi.value = .fin q := by
  obtain ⟨same, finite⟩ := Bool.and_eq_true_iff.1 point
  obtain ⟨q, value⟩ := Number.exists_value (by simpa using finite)
  have equal : i.lo.value = i.hi.value := of_decide_eq_true same
  exact ⟨q, value, equal ▸ value⟩

theorem exists_spans (inhabited : i.isEmpty = false) : ∃ v, i.Spans v :=
  ⟨i.lo.value, le_rfl, not_not.1 (of_decide_eq_false inhabited)⟩

theorem not_spans_bottom : ¬ (bottom .rational).Spans v := by
  intro spans
  have empty : (bottom .rational).isEmpty = true := by decide
  simp [spans.not_isEmpty] at empty

theorem has_top (q : Rat) : (top .rational).Has q :=
  ⟨negInf_le _, le_posInf _⟩

theorem isRational_top : (top .rational).IsRational := ⟨rfl, rfl⟩

theorem isRational_bottom : (bottom .rational).IsRational := ⟨rfl, rfl⟩

theorem isRational_ofExt (lo hi : ExtRat) : (ofExt lo hi).IsRational := ⟨rfl, rfl⟩

@[simp]
theorem has_ofExt_fin {lo hi : Rat} : (ofExt (.fin lo) (.fin hi)).Has q ↔ lo ≤ q ∧ q ≤ hi :=
  and_congr fin_le_fin fin_le_fin

theorem IsRational.valid (h : i.IsRational) : i.Valid :=
  ⟨h.hi.trans h.lo.symm, fun double => by simp [h.lo] at double,
    fun double => by simp [h.hi] at double⟩

theorem spans_convert_rational : (i.convert .rational).Spans v ↔ i.Spans v := by
  unfold convert
  split
  · rfl
  · split
    · rename_i empty
      refine iff_of_false not_spans_bottom fun h => ?_
      simp [h.not_isEmpty] at empty
    · simp [Spans, Number.value_convert_rational]

theorem has_convert_rational : (i.convert .rational).Has q ↔ i.Has q := spans_convert_rational

theorem has_neg : i.neg.Has q ↔ i.Has (-q) := by
  change i.hi.value.neg ≤ .fin q ∧ .fin q ≤ i.lo.value.neg ↔ _
  rw [neg_le_fin, fin_le_neg, and_comm]
  rfl

theorem Valid.neg (valid : i.Valid) : i.neg.Valid :=
  ⟨valid.sameKind.symm, valid.validHi.neg, valid.validLo.neg⟩

/-! ### The lattice -/

theorem isEmpty_eq_false_iff : i.isEmpty = false ↔ i.lo.value ≤ i.hi.value := by
  rw [isEmpty, decide_eq_false_iff_not]
  exact not_lt (a := i.hi.value)

theorem isEmpty_neg (full : i.isEmpty = false) : i.neg.isEmpty = false :=
  isEmpty_eq_false_iff.2 (neg_le_neg (isEmpty_eq_false_iff.1 full))

theorem leq_iff (full : a.isEmpty = false) (full' : b.isEmpty = false) :
    a.leq b = true ↔ b.lo.value ≤ a.lo.value ∧ a.hi.value ≤ b.hi.value := by
  rw [leq, full, full', if_neg Bool.false_ne_true, if_neg Bool.false_ne_true, Bool.and_eq_true,
    decide_eq_true_eq, decide_eq_true_eq]
  rfl

/-- The lower bound is not `+∞` and the upper bound is not `-∞`. -/
structure IsProper (i : Interval) : Prop where
  lower : i.lo.value ≠ .posInf
  upper : i.hi.value ≠ .negInf

theorem IsProper.neg (proper : i.IsProper) : i.neg.IsProper where
  lower h := proper.upper ((ExtRat.neg_neg _).symm.trans (congrArg ExtRat.neg h))
  upper h := proper.lower ((ExtRat.neg_neg _).symm.trans (congrArg ExtRat.neg h))

theorem Has.isProper (h : i.Has q) : i.IsProper where
  lower eq := not_posInf_le_fin (eq ▸ h.1)
  upper eq := not_fin_le_negInf (eq ▸ h.2)

theorem IsProper.exists_has (proper : i.IsProper) (full : i.isEmpty = false) : ∃ q, i.Has q := by
  have order := isEmpty_eq_false_iff.1 full
  cases lo : i.lo.value with
  | posInf => exact absurd lo proper.lower
  | fin l => exact ⟨l, lo.le, lo ▸ order⟩
  | negInf =>
    cases hi : i.hi.value with
    | negInf => exact absurd hi proper.upper
    | fin h => exact ⟨h, lo ▸ negInf_le _, hi.ge⟩
    | posInf => exact ⟨0, lo ▸ negInf_le _, hi ▸ le_posInf _⟩

theorem Spans.of_leq (h : a.Spans v) (included : a.leq b = true) : b.Spans v := by
  have full' : b.isEmpty = false := by
    by_contra empty
    rw [leq, h.not_isEmpty, eq_true_of_ne_false empty] at included
    exact Bool.false_ne_true included
  obtain ⟨lo, hi⟩ := (leq_iff h.not_isEmpty full').1 included
  exact ⟨lo.trans h.1, h.2.trans hi⟩

theorem leq_self (i : Interval) : i.leq i = true := by
  cases empty : i.isEmpty with
  | true => rw [leq, empty, if_pos rfl]
  | false => exact (leq_iff empty empty).2 ⟨le_refl _, le_refl _⟩

theorem Spans.canonical (h : i.Spans v) : i.canonical.Spans v := by
  rwa [Interval.canonical, h.not_isEmpty]

theorem Spans.meet (ha : a.Spans v) (hb : b.Spans v) : (a.meet b).Spans v := by
  refine .canonical ⟨?_, ?_⟩
  · rw [Number.value_max]
    exact max_le ha.1 hb.1
  · rw [Number.value_min]
    exact le_min ha.2 hb.2

theorem Spans.join (h : a.Spans v ∨ b.Spans v) : (a.join b).Spans v := by
  unfold Interval.join
  split
  · rename_i empty
    exact h.resolve_left fun ha => by simp [ha.not_isEmpty] at empty
  · split
    · rename_i empty
      exact h.resolve_right fun hb => by simp [hb.not_isEmpty] at empty
    · refine ⟨?_, ?_⟩
      · rw [Number.value_min]
        exact min_le_iff.2 (h.imp And.left And.left)
      · rw [Number.value_max]
        exact le_max_iff.2 (h.imp And.right And.right)

theorem spans_of_isZero (zero : i.isZero = true) : i.Spans v ↔ v = .fin 0 := by
  simp only [isZero, Number.isZero, Bool.and_eq_true, isZero_iff] at zero
  rw [Spans, zero.1, zero.2, le_antisymm_iff, and_comm]

theorem has_of_isZero (zero : i.isZero = true) : i.Has q ↔ q = 0 := by
  rw [Has, spans_of_isZero zero, fin.injEq]

/-! ### Sums and products -/

theorem Spans.add (lo : a.lo.kind ≠ .double) (hi : a.hi.kind ≠ .double) (ha : a.Spans u)
    (hb : b.Spans v) : (a.add b).Spans (u + v) := by
  rw [Interval.add, ha.not_isEmpty, hb.not_isEmpty]
  exact ⟨Number.add_down_le lo ha.1 hb.1, Number.le_add_up hi ha.2 hb.2⟩

theorem spans_mul_of_corners {lo hi lo' hi' : ExtRat} (hu : lo ≤ u ∧ u ≤ hi)
    (hv : lo' ≤ v ∧ v ≤ hi') (first : i.Spans (lo.mul lo')) (second : i.Spans (lo.mul hi'))
    (third : i.Spans (hi.mul lo')) (fourth : i.Spans (hi.mul hi')) : i.Spans (u.mul v) := by
  have low : i.Spans (lo.mul v) := mul_between first second hv
  have high : i.Spans (hi.mul v) := mul_between third fourth hv
  rw [mul_comm] at low high ⊢
  exact mul_between low high hu

theorem Spans.mul (lo : a.lo.kind ≠ .double) (hi : a.hi.kind ≠ .double) (ha : a.Spans u)
    (hb : b.Spans v) : (a.mul b).Spans (u.mul v) := by
  rw [Interval.mul, ha.not_isEmpty, hb.not_isEmpty, Bool.or_self, if_neg Bool.false_ne_true]
  -- rounding only widens the range of the products of bounds
  refine spans_mul_of_corners ha hb ?_ ?_ ?_ ?_ <;>
    simp only [Spans, least, greatest, Number.value_min, Number.value_max, min_le_iff, le_max_iff]
  · exact ⟨.inl (.inl (.inl (Number.mul_down_le lo))), .inl (.inl (.inl (Number.le_mul_up lo)))⟩
  · exact ⟨.inl (.inl (.inr (Number.mul_down_le lo))), .inl (.inl (.inr (Number.le_mul_up lo)))⟩
  · exact ⟨.inl (.inr (Number.mul_down_le hi)), .inl (.inr (Number.le_mul_up hi))⟩
  · exact ⟨.inr (Number.mul_down_le hi), .inr (Number.le_mul_up hi)⟩

theorem IsRational.add (ha : a.IsRational) (b : Interval) : (a.add b).IsRational := by
  unfold Interval.add
  split
  · rw [kind, ha.lo]
    exact isRational_bottom
  · exact ⟨Number.kind_add ha.lo _ _, Number.kind_add ha.hi _ _⟩

/-! ### Moving an interval by a bound -/

open LinearForm (weight)

theorem weight_of_lo {l : Rat} (finite : i.lo.value = .fin l) : weight i = i.lo := by
  simp [weight, Number.isInfinite, Number.infinitySign, finite, infinitySign]

theorem weight_of_hi {h : Rat} (infinite : i.lo.value = .negInf) (finite : i.hi.value = .fin h) :
    weight i = i.hi := by
  simp [weight, infinite, Number.isInfinite, Number.infinitySign, finite, infinitySign]

theorem exists_weight (i : Interval) : ∃ w, (weight i).value = .fin w := by
  unfold weight
  split
  · rename_i finite
    exact Number.exists_value (by simpa using finite)
  split
  · rename_i finite
    exact Number.exists_value (by simpa using finite)
  · exact ⟨0, rfl⟩

theorem kind_weight (sameKind : i.hi.kind = i.lo.kind) : (weight i).kind = i.lo.kind := by
  unfold weight
  split
  · rfl
  · split
    · exact sameKind
    · rfl

private theorem sub_weight_lo (valid : i.Valid) (double : i.lo.kind = .double) (h : i.Spans v)
    (value : (weight i).value = .fin w) :
    (i.lo.add .down (weight i).neg).value ≤ v + .fin (-w) := by
  have kind : (weight i).kind = .double := (kind_weight valid.sameKind).trans double
  obtain ⟨low, -⟩ := h
  cases lo : i.lo.value with
  | negInf =>
    have sum? : i.lo.sum? .down (weight i).neg = some ⟨.double, .negInf⟩ := by
      simp [Number.sum?, Number.neg, kind, double, value, lo, ExtRat.neg, Double.add?, add?]
    rw [Number.add, sum?]
    exact ExtRat.negInf_le _
  | posInf =>
    rw [lo] at low
    rw [le_antisymm (le_posInf v) low]
    exact le_posInf _
  | fin l =>
    -- the bound is its own weight, and what is left of it is rounded to at most zero
    obtain rfl : l = w := by simpa [weight_of_lo lo, lo] using value
    obtain ⟨z, sum, nonpos⟩ := Double.add?_down_neg_le l
    have sum? : i.lo.sum? .down (weight i).neg = some ⟨.double, z⟩ := by
      simp [Number.sum?, Number.neg, kind, double, value, lo, ExtRat.neg, sum]
    have nonneg : .fin 0 ≤ v + .fin (-l) := by
      have := add_le_add_left low (.fin (-l))
      rwa [lo, fin_add_fin, add_neg_cancel] at this
    rw [Number.add, sum?]
    exact nonpos.trans nonneg

private theorem sub_weight_hi (valid : i.Valid) (double : i.lo.kind = .double) (h : i.Spans v)
    (value : (weight i).value = .fin w) : v + .fin (-w) ≤ (i.hi.add .up (weight i).neg).value := by
  have kind : (weight i).kind = .double := (kind_weight valid.sameKind).trans double
  have doubleHi : i.hi.kind = .double := valid.sameKind.trans double
  obtain ⟨low, high⟩ := h
  cases hi : i.hi.value with
  | negInf =>
    rw [hi] at high
    rw [le_antisymm high (negInf_le v)]
    exact negInf_le _
  | posInf =>
    have sum? : i.hi.sum? .up (weight i).neg = some ⟨.double, .posInf⟩ := by
      simp [Number.sum?, Number.neg, kind, doubleHi, value, hi, ExtRat.neg, Double.add?, add?]
    rw [Number.add, sum?]
    exact ExtRat.le_posInf _
  | fin b =>
    rw [hi] at high
    have isDoubleHi : Double.IsDouble (.fin b) := hi ▸ valid.validHi doubleHi
    -- the difference is not negative, and there rounding doubles up never falls short
    have operand : Double.IsDouble (.fin w) ∧ w ≤ b := by
      cases lo : i.lo.value with
      | fin l =>
        obtain rfl : l = w := by simpa [weight_of_lo lo, lo] using value
        exact ⟨lo ▸ valid.validLo double, fin_le_fin.1 (lo ▸ low.trans high)⟩
      | negInf =>
        obtain rfl : b = w := by simpa [weight_of_hi lo hi, hi] using value
        exact ⟨isDoubleHi, le_rfl⟩
      | posInf =>
        rw [lo] at low
        exact absurd (low.trans high) not_posInf_le_fin
    obtain ⟨z, sum, le⟩ := Double.le_add?_up isDoubleHi operand.1.neg (by linarith)
    have sum? : i.hi.sum? .up (weight i).neg = some ⟨.double, z⟩ := by
      simp [Number.sum?, Number.neg, kind, doubleHi, value, hi, ExtRat.neg, sum]
    rw [Number.add, sum?]
    exact (add_le_add_left high _).trans le

private theorem sub_weight_eq (h : i.Spans v) : i.sub (.point (weight i)) =
    ⟨i.lo.add .down (weight i).neg, i.hi.add .up (weight i).neg⟩ := by
  have single : (point (weight i)).neg.isEmpty = false := decide_eq_false (not_not.2 (le_refl _))
  rw [sub, add, h.not_isEmpty, single]
  rfl

theorem spans_sub_weight (valid : i.Valid) (h : i.Spans v) (value : (weight i).value = .fin w) :
    (i.sub (.point (weight i))).Spans (v + .fin (-w)) := by
  rw [sub_weight_eq h]
  by_cases double : i.lo.kind = .double
  · exact ⟨sub_weight_lo valid double h value, sub_weight_hi valid double h value⟩
  · have opposite : (weight i).neg.value = .fin (-w) := by simp [Number.neg, value, ExtRat.neg]
    exact ⟨Number.add_down_le double h.1 opposite.le,
      Number.le_add_up (valid.sameKind ▸ double) h.2 opposite.ge⟩

end Interval

end Enclosure
