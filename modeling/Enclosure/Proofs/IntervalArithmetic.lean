import Enclosure.Proofs.IntegerRounding
import Enclosure.Proofs.PointIntervals

/-!
# Interval arithmetic

Operations on intervals of one kind are never refused, and hold the results of the operation on
members.
-/

namespace Enclosure.Interval

variable {a b c e : Interval} {k : Kind} {x : Number} {n : Nat} {q : Rat} {l h l' h' : Rat}
  {S : Set Rat}

/-! ### Attained bounds -/

structure IsRange (i : Interval) (l h : Rat) : Prop where
  rational : i.IsRational
  lo : i.lo.value = .fin l
  hi : i.hi.value = .fin h
  order : l ≤ h

theorem exists_isRange (rational : a.IsRational) (full : a.isEmpty = false)
    (bounded : a.isBounded = true) : ∃ l h, a.IsRange l h := by
  obtain ⟨finite, finite'⟩ : a.lo.isInfinite = false ∧ a.hi.isInfinite = false := by
    simpa [isBounded] using bounded
  obtain ⟨l, lo⟩ := Number.exists_value finite
  obtain ⟨h, hi⟩ := Number.exists_value finite'
  have order := isEmpty_eq_false_iff.1 full
  rw [lo, hi] at order
  exact ⟨l, h, rational, lo, hi, order⟩

/-- The bounds are the least and the greatest element of the set. -/
def IsHull (i : Interval) (S : Set Rat) : Prop :=
  ∃ l h, i.lo.value = .fin l ∧ i.hi.value = .fin h ∧ IsLeast S l ∧ IsGreatest S h

theorem isHull_of_attained (enclosed : ∀ q ∈ S, c.Has q) (lower : ∃ q ∈ S, c.lo.value = .fin q)
    (upper : ∃ q ∈ S, c.hi.value = .fin q) : c.IsHull S := by
  obtain ⟨l, low, lo⟩ := lower
  obtain ⟨h, high, hi⟩ := upper
  refine ⟨l, h, lo, hi, ⟨low, fun q mem => ?_⟩, high, fun q mem => ?_⟩
  · exact ExtRat.fin_le_fin.1 (lo ▸ (enclosed q mem).1)
  · exact ExtRat.fin_le_fin.1 (hi ▸ (enclosed q mem).2)

namespace IsRange

section

variable (ha : a.IsRange l h)
include ha

theorem has_iff : a.Has q ↔ l ≤ q ∧ q ≤ h := by
  rw [Has, Spans, ha.lo, ha.hi, ExtRat.fin_le_fin, ExtRat.fin_le_fin]

theorem has_lo : a.Has l := ha.has_iff.2 ⟨le_rfl, ha.order⟩

theorem has_hi : a.Has h := ha.has_iff.2 ⟨ha.order, le_rfl⟩

theorem isEmpty : a.isEmpty = false := ha.has_lo.not_isEmpty

theorem isOf : a.IsOf .rational := isOf_rational_iff.2 ha.rational

theorem neg : a.neg.IsRange (-h) (-l) where
  rational := ⟨ha.rational.hi, ha.rational.lo⟩
  lo := congrArg ExtRat.neg ha.hi
  hi := congrArg ExtRat.neg ha.lo
  order := neg_le_neg ha.order

section

variable (hb : b.IsRange l' h')
include hb

theorem add : (a.add b).IsHull (Set.image2 (· + ·) {x | a.Has x} {y | b.Has y}) := by
  have bounds : a.add b = ⟨a.lo.add .down b.lo, a.hi.add .up b.hi⟩ := by
    rw [Interval.add, ha.isEmpty, hb.isEmpty, Bool.or_self, if_neg Bool.false_ne_true]
  apply isHull_of_attained
  · rintro q ⟨x, hx, y, hy, rfl⟩
    exact .add (ha.isOf.lo_ne (by simp)) (ha.isOf.hi_ne (by simp)) hx hy
  · refine ⟨l + l', ⟨l, ha.has_lo, l', hb.has_lo, rfl⟩, ?_⟩
    rw [bounds, Number.value_add_of_fin ha.rational.lo ha.lo, hb.lo]
    rfl
  · refine ⟨h + h', ⟨h, ha.has_hi, h', hb.has_hi, rfl⟩, ?_⟩
    rw [bounds, Number.value_add_of_fin ha.rational.hi ha.hi, hb.hi]
    rfl

theorem sub : (a.sub b).IsHull (Set.image2 (· - ·) {x | a.Has x} {y | b.Has y}) := by
  have differences : Set.image2 (· - ·) {x | a.Has x} {y | b.Has y} =
      .image2 (· + ·) {x | a.Has x} {y | b.neg.Has y} := by
    ext q
    constructor
    · rintro ⟨x, hx, y, hy, rfl⟩
      exact ⟨x, hx, -y, has_neg.2 (by rwa [neg_neg]), (sub_eq_add_neg x y).symm⟩
    · rintro ⟨x, hx, y, hy, rfl⟩
      exact ⟨x, hx, -y, has_neg.1 hy, sub_neg_eq_add x y⟩
  rw [differences]
  exact ha.add hb.neg

theorem isHull_of_corners {f : Rat → Rat → Rat}
    (enclosed : ∀ q ∈ Set.image2 f {x | a.Has x} {y | b.Has y}, c.Has q)
    (lo : c.lo.value = .fin (min (min (min (f l l') (f l h')) (f h l')) (f h h')))
    (hi : c.hi.value = .fin (max (max (max (f l l') (f l h')) (f h l')) (f h h'))) :
    c.IsHull (Set.image2 f {x | a.Has x} {y | b.Has y}) := by
  have corner {x y : Rat} hx hy :
      f x y ∈ Set.image2 f {x | a.Has x} {y | b.Has y} := ⟨x, hx, y, hy, rfl⟩
  refine isHull_of_attained enclosed ⟨_, ?_, lo⟩ ⟨_, ?_, hi⟩
  · exact min_rec' (· ∈ _) (min_rec' (· ∈ _) (min_rec' (· ∈ _) (corner ha.has_lo hb.has_lo)
      (corner ha.has_lo hb.has_hi)) (corner ha.has_hi hb.has_lo)) (corner ha.has_hi hb.has_hi)
  · exact max_rec' (· ∈ _) (max_rec' (· ∈ _) (max_rec' (· ∈ _) (corner ha.has_lo hb.has_lo)
      (corner ha.has_lo hb.has_hi)) (corner ha.has_hi hb.has_lo)) (corner ha.has_hi hb.has_hi)

theorem mul : (a.mul b).IsHull (Set.image2 (· * ·) {x | a.Has x} {y | b.Has y}) := by
  have product (p q : Rat) : (ExtRat.fin p).mul (.fin q) = .fin (p * q) := rfl
  have bounds : a.mul b = ⟨least (a.lo.mul .down b.lo) (a.lo.mul .down b.hi) (a.hi.mul .down b.lo)
      (a.hi.mul .down b.hi), greatest (a.lo.mul .up b.lo) (a.lo.mul .up b.hi) (a.hi.mul .up b.lo)
      (a.hi.mul .up b.hi)⟩ := by
    rw [Interval.mul, ha.isEmpty, hb.isEmpty, Bool.or_self, if_neg Bool.false_ne_true]
  refine isHull_of_corners ha hb ?_ ?_ ?_
  · rintro q ⟨x, hx, y, hy, rfl⟩
    exact .mul (ha.isOf.lo_ne (by simp)) (ha.isOf.hi_ne (by simp)) hx hy
  · rw [bounds]
    simp only [least, Number.value_min, Number.value_mul_of_rational, ha.rational.lo,
      ha.rational.hi, ha.lo, ha.hi, hb.lo, hb.hi, product, ExtRat.fin_min]
  · rw [bounds]
    simp only [greatest, Number.value_max, Number.value_mul_of_rational, ha.rational.lo,
      ha.rational.hi, ha.lo, ha.hi, hb.lo, hb.hi, product, ExtRat.fin_max]

theorem div (apart : ¬ b.Has 0) :
    (a.div b).IsHull (Set.image2 (· / ·) {x | a.Has x} {y | b.Has y}) := by
  have quotient (p q : Rat) : (ExtRat.fin p).mul (ExtRat.fin q).inv = .fin (p / q) := by
    rfl
  obtain ⟨lo, hi⟩ := div_bounds Kind.isOutward_rational ha.isOf hb.isOf ha.isEmpty hb.isEmpty
    (Bool.eq_false_iff.2 (mt containsZero_iff.1 apart)) hb.lo hb.hi fun _ _ _ _ => trivial
  simp only [ha.lo, ha.hi, quotient, ← ExtRat.fin_min, ← ExtRat.fin_max] at lo hi
  refine isHull_of_corners ha hb ?_ lo hi
  rintro q ⟨x, hx, y, hy, rfl⟩
  refine .div (ha.isOf.lo_ne (by simp)) (ha.isOf.hi_ne (by simp)) hx hy ?_
  rintro rfl
  exact apart hy

end

end

end IsRange

/-! ### Powers of ranges -/

theorem value_magnitudePower (rational : x.kind = .rational) (value : x.value = .fin q)
    (small : n ≤ powerLimit) (upward : Bool) :
    (magnitudePower x n upward).value = .fin (|q| ^ n) := by
  let R (p : Rat) (y : Number) : Prop := y.kind = .rational ∧ y.value = .fin p
  have mul {r : Rounding} {p p' : Rat} {y y' : Number} (hy : R p y) (hy' : R p' y') :
      R (p * p') (y.mul r y') := by
    refine ⟨?_, ?_⟩
    · rw [Number.mul_eq (by simp [hy.1]), hy.1]
      rfl
    · rw [Number.value_mul_of_rational hy.1, hy.2, hy'.2]
      rfl
  have one : R 1 (.one x.kind) := ⟨rational, rational ▸ Kind.isOutward_rational.unit⟩
  have magnitude : R |q| x.abs := by
    refine ⟨(Number.kind_abs x).trans rational, ?_⟩
    rw [Number.value_abs, value, abs_eq_max_neg, ExtRat.fin_max]
    rfl
  unfold magnitudePower
  rw [if_pos small, ← one_mul (|q| ^ n)]
  exact (powerBySquaring_keeps mul one magnitude).2

theorem value_signedPower (rational : x.kind = .rational) (value : x.value = .fin q)
    (small : n ≤ powerLimit) (upward : Bool) : (signedPower x n upward).value = .fin (q ^ n) := by
  have magnitude := value_magnitudePower rational value small
  have sign : x.sign < 0 ↔ q < 0 := by
    rw [← not_le, ← not_le, Number.sign, value, ExtRat.sign_nonneg, ExtRat.fin_le_fin]
  unfold signedPower
  split
  · rename_i both
    obtain ⟨negative, odd⟩ : q < 0 ∧ n % 2 = 1 := by simpa [sign] using both
    have power : |q| ^ n = -q ^ n := by
      rw [abs_of_neg negative, (Nat.odd_iff.2 odd).neg_pow]
    rw [Number.neg, magnitude, power]
    exact congrArg ExtRat.fin (neg_neg (q ^ n))
  · rename_i neither
    rw [magnitude]
    rcases lt_or_ge q 0 with negative | nonneg
    · have even : n % 2 = 0 := by simpa [sign, negative] using neither
      rw [(Nat.even_iff.2 even).pow_abs]
    · rw [abs_of_nonneg nonneg]

theorem IsAt.exponent?_eq (at' : e.IsAt n) : exponent? e = some n := by
  have point : e.isPoint = true := by
    simp [isPoint, Number.same, Number.isInfinite, at'.lo, at'.hi, Number.infinitySign,
      ExtRat.infinitySign]
  unfold exponent?
  rw [at'.lo, point]
  simp

theorem IsRange.pow (ha : a.IsRange l h) (at' : e.IsAt n) (small : n ≤ powerLimit) :
    (a.pow e).IsHull (Set.image (· ^ n) {x | a.Has x}) := by
  have outward := Kind.isOutward_rational
  have power {x : Rat} hx : x ^ n ∈ Set.image (· ^ n) {x | a.Has x} := ⟨x, hx, rfl⟩
  have low := value_signedPower ha.rational.lo ha.lo small
  have high := value_signedPower ha.rational.hi ha.hi small
  have attained : (∃ q ∈ Set.image (· ^ n) {x | a.Has x}, (a.pow e).lo.value = .fin q) ∧
      ∃ q ∈ Set.image (· ^ n) {x | a.Has x}, (a.pow e).hi.value = .fin q := by
    unfold Interval.pow
    rw [ha.isEmpty, at'.isEmpty, Bool.or_self, if_neg Bool.false_ne_true, at'.exponent?_eq]
    dsimp only
    split
    · rename_i zero
      have one : (Number.one a.kind).value = .fin (l ^ n) := by
        rw [zero, pow_zero, kind, ha.rational.lo]
        exact outward.unit
      exact ⟨⟨_, power ha.has_lo, one⟩, _, power ha.has_lo, one⟩
    split
    · exact ⟨⟨_, power ha.has_lo, low _⟩, _, power ha.has_hi, high _⟩
    rename_i nonzero neither
    split
    · exact ⟨⟨_, power ha.has_hi, high _⟩, _, power ha.has_lo, low _⟩
    · -- zero is a member, and has the least even power
      rename_i positive
      have zero : a.Has 0 := by
        obtain ⟨-, negative⟩ : n % 2 = 0 ∧ a.lo.sign < 0 := by simpa using neither
        exact ⟨ExtRat.sign_nonpos.1 negative.le, ExtRat.sign_nonneg.1 (not_le.1 positive).le⟩
      refine ⟨⟨_, power zero, ?_⟩, max (l ^ n) (h ^ n), ?_, ?_⟩
      · rw [zero_pow nonzero]
        rfl
      · exact max_rec' (· ∈ _) (power ha.has_lo) (power ha.has_hi)
      · rw [Number.value_max, low, high, ExtRat.fin_max]
  refine isHull_of_attained ?_ attained.1 attained.2
  rintro q ⟨x, hx, rfl⟩
  exact .pow (ha.rational.lo ▸ outward) (ha.rational.hi ▸ outward) at'.exponent?_eq hx

/-! ### Intervals of one kind -/

theorem agreeUnless_eq {operation : Arithmetic} (known : Bool) (same : a.kind = b.kind) :
    agreeUnless known operation a b = .ok () := by
  have agrees : b.kind.agrees b.kind = true := by cases b.kind <;> rfl
  rw [agreeUnless, agree, same, agrees]
  cases known <;> rfl

theorem checkedAdd_eq (same : a.kind = b.kind) : a.checkedAdd b = .ok (a.add b) := by
  rw [checkedAdd, agreeUnless_eq _ same]
  rfl

theorem checkedMul_eq (same : a.kind = b.kind) : a.checkedMul b = .ok (a.mul b) := by
  rw [checkedMul, agreeUnless_eq _ same]
  rfl

theorem checkedDiv_eq (same : a.kind = b.kind) : a.checkedDiv b = .ok (a.div b) := by
  rw [checkedDiv, agreeUnless_eq _ same]
  rfl

theorem checkedModulo_eq (ha : a.Fits k) (hb : b.Fits k) :
    a.checkedModulo b = .ok (a.modulo b) := by
  have same : a.kind = b.kind := ha.lo.kind.trans hb.lo.kind.symm
  have result := Both.modulo (Number.closed_kind k) ⟨ha.lo.kind, ha.hi.kind⟩
    ⟨hb.lo.kind, hb.hi.kind⟩
  simp only [checkedModulo, agreeUnless_eq _ same, agreeUnless_eq _ same.symm, ite_self, build,
    result.lo, result.hi]
  rfl

def towardZero (q : Rat) : Int := if 0 ≤ q then ⌊q⌋ else ⌈q⌉

theorem truncate_ratCast (q : Rat) : Enclosure.truncate (q : ℝ) = towardZero q := by
  simp only [Enclosure.truncate, towardZero, Rat.cast_nonneg, Rat.floor_cast, Rat.ceil_cast]

theorem remainder_ratCast (x y : Rat) :
    remainder (x : ℝ) y = (x - y * towardZero (x / y) : Rat) := by
  rw [remainder, ← Rat.cast_div, truncate_ratCast]
  push_cast
  rfl

/-- Operations on intervals of one kind, rationals or floats of one precision, are not refused. -/
theorem arithmetic_encloses_and_attains (directed : k ≠ .double) (bits : k ≠ .binary 0)
    (ha : a.Fits k) (hb : b.Fits k) :
    (a.checkedAdd b = .ok (a.add b) ∧ a.checkedSub b = .ok (a.sub b) ∧
      a.checkedMul b = .ok (a.mul b) ∧ a.checkedDiv b = .ok (a.div b) ∧
      a.checkedModulo b = .ok (a.modulo b)) ∧
    (∀ x y, a.Has x → b.Has y →
      (a.add b).Has (x + y) ∧ (a.sub b).Has (x - y) ∧ (a.mul b).Has (x * y) ∧
      (y ≠ 0 → (a.div b).Has (x / y)) ∧
      (∀ (n : Nat) (e : Interval), e.IsAt n → (a.pow e).Has (x ^ n)) ∧
      (y ≠ 0 → (a.modulo b).Has (x - y * towardZero (x / y))) ∧
      ∀ (policy : RoundingPolicy) (m : Int), policy.Rounds x m →
        (a.roundInteger policy).Has m) ∧
    (k = .rational → a.isEmpty = false → b.isEmpty = false → a.isBounded = true →
      b.isBounded = true →
      (a.add b).IsHull (Set.image2 (· + ·) {x | a.Has x} {y | b.Has y}) ∧
      (a.sub b).IsHull (Set.image2 (· - ·) {x | a.Has x} {y | b.Has y}) ∧
      (a.mul b).IsHull (Set.image2 (· * ·) {x | a.Has x} {y | b.Has y}) ∧
      (¬ b.Has 0 → (a.div b).IsHull (Set.image2 (· / ·) {x | a.Has x} {y | b.Has y})) ∧
      ∀ (n : Nat) (e : Interval), e.IsAt n → n ≤ 256 →
        (a.pow e).IsHull (Set.image (· ^ n) {x | a.Has x})) := by
  have outward := Kind.isOutward_of_ne directed bits
  have same : a.kind = b.kind := ha.lo.kind.trans hb.lo.kind.symm
  have same' : a.kind = b.neg.kind := ha.lo.kind.trans hb.hi.kind.symm
  have lo : a.lo.kind ≠ .double := ha.isOf.lo_ne directed
  have hi : a.hi.kind ≠ .double := ha.isOf.hi_ne directed
  refine ⟨⟨checkedAdd_eq same, checkedAdd_eq same', checkedMul_eq same, checkedDiv_eq same,
    checkedModulo_eq ha hb⟩, ?_, ?_⟩
  · intro x y hx hy
    have real := encloses_ratCast.2 hx
    refine ⟨Spans.add lo hi hx hy, ?_, Spans.mul lo hi hx hy, Has.div lo hi hx hy, ?_, ?_, ?_⟩
    · rw [sub_eq_add_neg]
      exact Spans.add lo hi hx (has_neg.2 (by rwa [neg_neg]))
    · intro n e at'
      exact Has.pow (ha.lo.kind ▸ outward) (ha.hi.kind ▸ outward) at'.exponent?_eq hx
    · intro nonzero
      have remainders := real.modulo (encloses_ratCast.2 hy) (by exact_mod_cast nonzero)
      rwa [remainder_ratCast, encloses_ratCast] at remainders
    · intro policy m rounds
      rw [← encloses_ratCast, Rat.cast_intCast]
      exact real.roundInteger outward ha rounds
  · rintro rfl full full' bounded bounded'
    obtain ⟨l, h, range⟩ := exists_isRange ⟨ha.lo.kind, ha.hi.kind⟩ full bounded
    obtain ⟨l', h', range'⟩ := exists_isRange ⟨hb.lo.kind, hb.hi.kind⟩ full' bounded'
    exact ⟨range.add range', range.sub range', range.mul range', range.div range',
      fun n e at' small => range.pow at' small⟩

/-- From minus two to three, and from one to two: the squares of the former start at zero, which is
the square of no bound. -/
theorem range_across_zero_attained :
    let a := Interval.ofExt (.fin (-2)) (.fin 3)
    let b := Interval.ofExt (.fin 1) (.fin 2)
    let two := Interval.ofExt (.fin 2) (.fin 2)
    Kind.rational ≠ .double ∧ Kind.rational ≠ .binary 0 ∧ a.Fits .rational ∧ b.Fits .rational ∧
    a.isEmpty = false ∧ b.isEmpty = false ∧ a.isBounded = true ∧ b.isBounded = true ∧
    a.checkedSub b = .ok (Interval.ofExt (.fin (-4)) (.fin 2)) ∧
    (a.sub b).IsHull (Set.image2 (· - ·) {x | a.Has x} {y | b.Has y}) ∧
    a.pow two = Interval.ofExt (.fin 0) (.fin 9) ∧
    (a.pow two).IsHull (Set.image (· ^ 2) {x | a.Has x}) ∧
    (a.modulo b).Has (-2 - 3 / 2 * towardZero (-2 / (3 / 2))) := by
  intro a b two
  have ha : a.Fits .rational := (isRational_ofExt _ _).fits
  have hb : b.Fits .rational := (isRational_ofExt _ _).fits
  have full : a.isEmpty = false ∧ b.isEmpty = false := by decide +kernel
  have bounded : a.isBounded = true ∧ b.isBounded = true := by decide
  obtain ⟨⟨-, subtracted, -⟩, enclosed, attained⟩ :=
    arithmetic_encloses_and_attains (a := a) (b := b) (by decide) (by decide) ha hb
  obtain ⟨-, difference, -, -, power⟩ := attained rfl full.1 full.2 bounded.1 bounded.2
  obtain ⟨-, -, -, -, -, remainder, -⟩ := enclosed (-2) (3 / 2)
    (by norm_num [a, has_ofExt_fin]) (by norm_num [b, has_ofExt_fin])
  have sub : a.sub b = Interval.ofExt (.fin (-4)) (.fin 2) := by decide +kernel
  have pow : a.pow two = Interval.ofExt (.fin 0) (.fin 9) := by decide +kernel
  exact ⟨by decide, by decide, ha, hb, full.1, full.2, bounded.1, bounded.2, sub ▸ subtracted,
    difference, pow, power 2 two ⟨rfl, rfl⟩ (by decide), remainder (by norm_num)⟩

end Enclosure.Interval
