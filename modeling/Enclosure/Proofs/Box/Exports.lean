import Enclosure.Proofs.Box.Exactness
import Enclosure.Proofs.Box.Lattice
import Enclosure.Proofs.Exports

/-!
# Exported boxes

The bounds of each range are exported, and a range with one member as an equation.
-/

namespace Enclosure

open LinearConstraint

open ExtRat (fin fin_le_fin le_posInf neg negInf_le)

open List

/-! ### Whole bounds -/

def ExtRat.IsWhole (u : ExtRat) : Prop := ∀ q, u = .fin q → q.den = 1

/-- Both bounds are integers or infinite. -/
structure Interval.IsWhole (i : Interval) : Prop where
  lower : i.lo.value.IsWhole
  upper : i.hi.value.IsWhole

namespace ExtRat

variable {u : ExtRat}

theorem IsWhole.neg (hu : u.IsWhole) : u.neg.IsWhole := by
  intro q value
  cases u with
  | fin p =>
    obtain rfl := fin.inj value
    exact hu p rfl
  | _ => cases value

end ExtRat

namespace Interval

variable {i j : Interval} {isInt : Bool} {q : Rat}

section

variable (full : i.isEmpty = false) (proper : i.IsProper) (whole : isInt = true → i.IsWhole)
include full proper whole

theorem exists_member_le (bound : i.lo.value ≤ .fin q) :
    ∃ p, i.Has p ∧ (isInt = true → p.den = 1) ∧ p ≤ q := by
  have order := isEmpty_eq_false_iff.1 full
  cases lo : i.lo.value with
  | posInf => exact absurd lo proper.lower
  | fin l =>
    refine ⟨l, ⟨lo.le, lo ▸ order⟩, fun int => (whole int).lower l lo, ?_⟩
    rwa [lo] at bound
  | negInf =>
    obtain ⟨n, below⟩ : ∃ n : Int, .fin n ≤ i.hi.value := by
      cases hi : i.hi.value with
      | negInf => exact absurd hi proper.upper
      | fin h => exact ⟨⌊h⌋, fin_le_fin.2 (Int.floor_le h)⟩
      | posInf => exact ⟨0, le_posInf _⟩
    refine ⟨(min ⌊q⌋ n : Int), ⟨lo ▸ negInf_le _, le_trans ?_ below⟩,
      fun _ => Rat.den_intCast _, ?_⟩
    · exact fin_le_fin.2 (Int.cast_le.2 (min_le_right _ _))
    · exact (Int.cast_le.2 (min_le_left _ _)).trans (Int.floor_le q)

theorem exists_member : ∃ p, i.Has p ∧ (isInt = true → p.den = 1) := by
  obtain ⟨q, bound⟩ : ∃ q, i.lo.value ≤ .fin q := by
    cases lo : i.lo.value with
    | negInf => exact ⟨0, negInf_le _⟩
    | fin l => exact ⟨l, le_refl _⟩
    | posInf => exact absurd lo proper.lower
  obtain ⟨p, has, integer, -⟩ := exists_member_le full proper whole bound
  exact ⟨p, has, integer⟩

theorem lower_le_of_members (members : ∀ q, i.Has q → (isInt = true → q.den = 1) → j.Has q) :
    j.lo.value ≤ i.lo.value := by
  refine ExtRat.le_iff_forall_fin.2 fun q bound => ?_
  obtain ⟨p, has, integer, le⟩ := exists_member_le full proper whole bound
  exact (members p has integer).1.trans (fin_le_fin.2 le)

theorem leq_of_members (full' : j.isEmpty = false)
    (members : ∀ q, i.Has q → (isInt = true → q.den = 1) → j.Has q) : i.leq j = true := by
  have opposite := lower_le_of_members (isEmpty_neg full) proper.neg
    (fun int => ⟨(whole int).upper.neg, (whole int).lower.neg⟩) fun q has integer =>
      has_neg.2 (members (-q) (has_neg.1 has) fun int => by rw [Rat.neg_den, integer int])
  exact (leq_iff full full').2 ⟨lower_le_of_members full proper whole members,
    by simpa [neg, Number.neg] using ExtRat.neg_le_neg opposite⟩

end

end Interval

namespace Box

variable {k : Kind} {s : Space} {bs : List Interval} {v w : Box} {x : List Rat} {d : Nat}
  {i : Interval} {q : Rat} {request request' query : Request}

def IsProper : Box → Prop
  | empty _ => True
  | ranges _ bs => ∀ i ∈ bs, i.IsProper

def IsIntegral : Box → Prop
  | empty _ => True
  | ranges s bs => ∀ d i, bs[d]? = some i → s.isInt d = true → i.IsWhole

/-! ### Points -/

theorem getD_map_range {n : Nat} (f : Nat → Rat) (inside : d < n) :
    ((range n).map f).getD d 0 = f d := by
  rw [getD_eq_getElem?_getD, getElem?_map, getElem?_range inside]
  rfl

theorem exists_members {int : Nat → Bool} (full : ∀ i ∈ bs, i.isEmpty = false)
    (proper : ∀ i ∈ bs, i.IsProper)
    (whole : ∀ (d : Nat) (i : Interval), bs[d]? = some i → int d = true → i.IsWhole) :
    ∃ f : Nat → Rat, ∀ (d : Nat) (i : Interval), bs[d]? = some i →
      i.Has (f d) ∧ (int d = true → (f d).den = 1) := by
  have each (d : Nat) : ∃ q : Rat, ∀ i, bs[d]? = some i → i.Has q ∧ (int d = true → q.den = 1) := by
    cases found : bs[d]? with
    | none => exact ⟨0, by simp⟩
    | some i =>
      have mem := mem_of_getElem? found
      obtain ⟨q, has⟩ := Interval.exists_member (full i mem) (proper i mem) (whole d i found)
      exact ⟨q, fun j same => Option.some.inj same ▸ has⟩
  choose f members using each
  exact ⟨f, members⟩

theorem inBox_map_range {f : Nat → Rat} (length : bs.length = s.size) :
    InBox bs ((range s.size).map f) ↔
      ∀ (d : Nat) (i : Interval), bs[d]? = some i → i.Has (f d) := by
  refine forall₃_congr fun d i found => ?_
  rw [getD_map_range f (length ▸ lt_of_getElem? found)]

theorem hasPoint_map_range {f : Nat → Rat} (length : bs.length = s.size)
    (members : ∀ d i, bs[d]? = some i → i.Has (f d) ∧ (s.isInt d = true → (f d).den = 1)) :
    (ranges s bs).HasPoint ((range s.size).map f) := by
  refine ⟨⟨by simp, fun d int => ?_⟩, (inBox_map_range length).2 fun d i found => ?_⟩
  · have inside : d < s.size := (of_decide_eq_true int).trans_le (Nat.le_add_right _ _)
    rw [getD_map_range f inside]
    exact (members d _ (getElem?_eq_getElem (length ▸ inside))).2 int
  · exact (members d i found).1

/-! ### Export -/

structure Expressed (k : Kind) (n : Nat) (c : LinearConstraint) : Prop where
  plain : c.IsPlain n
  sharp : c.form.IsSharp k
  expressed : expresses c = true
  loose : c.comparison ≠ .above

def unitConstraint (comparison : Comparison) (d : Nat) (a c : Number) : LinearConstraint :=
  .plain comparison ⟨.exact c, .sparse [(d, .exact a)]⟩

section Unit

variable {comparison : Comparison} {a c : Number} {n : Nat} {p t : Rat}

theorem expressed_unitConstraint (outward : k.IsOutward) (inside : d < n)
    (factor : a.value = .fin p) (unit : p = 1 ∨ p = -1) (constant : c.value = .fin t)
    (exact : k.Represents (.fin t)) (used : comparison = .equal ∨ comparison = .atLeast) :
    Expressed k n (unitConstraint comparison d a c) := by
  have one : k.Represents (.fin 1) := outward.represents_one
  have factorAt : (Coefficient.exact a).IsAt k p := by
    refine Coefficient.isAt_exact outward factor ?_
    rcases unit with rfl | rfl
    · exact one
    · exact one.neg
  have constantAt : (Coefficient.exact c).IsAt k t := Coefficient.isAt_exact outward constant exact
  have notZero : (Coefficient.exact a).isZero = false := by
    rw [Bool.eq_false_iff, ne_eq, Coefficient.isZero_of_rational? factorAt.number]
    rcases unit with rfl | rfl <;> norm_num
  have nonzero : (unitConstraint comparison d a c).form.nonzero = [(d, .exact a)] := by
    change [(d, Coefficient.exact a)].filter (!·.2.isZero) = _
    simp [notZero]
  have regular : (unitConstraint comparison d a c).form.IsRegular := by
    refine ⟨?_, t, (Coefficient.has_of_rational? constantAt.number).2 rfl⟩
    intro e mem
    obtain rfl := mem_singleton.1 mem
    rw [factorAt.number]
    rfl
  have used' : comparison = .equal ∨ comparison = .atLeast ∨ comparison = .above :=
    used.imp_right .inl
  refine ⟨⟨⟨?_, ?_, trivial⟩, ?_, regular, used'⟩, ⟨t, constantAt, ?_⟩, ?_, ?_⟩
  · exact nodup_singleton d
  · intro e mem
    obtain rfl := mem_singleton.1 mem
    trivial
  · intro e mem
    rw [nonzero, mem_singleton] at mem
    exact mem ▸ inside
  · intro e mem
    rw [nonzero, mem_singleton] at mem
    refine ⟨p, mem ▸ factorAt, ?_⟩
    rcases unit with rfl | rfl
    · simpa [neg] using exact.neg
    · simpa using exact
  · rw [expresses, nonzero]
    rcases used with rfl | rfl <;> rfl
  · rcases used with rfl | rfl <;> exact Comparison.noConfusion

theorem holds_unitConstraint (factor : a.value = .fin p) (constant : c.value = .fin t) :
    (unitConstraint comparison d a c).Holds x ↔ comparison.Holds none (p * x.getD d 0 + t) := by
  have number {b : Number} {r : Rat} value q : (Coefficient.exact b).Has q ↔ q = r :=
    Coefficient.has_of_rational? (Coefficient.rational?_exact value)
  have takes {v : Rat} : (unitConstraint comparison d a c).form.Takes x v ↔
      v = p * x.getD d 0 + t := by
    change (∃ k, (Coefficient.exact c).Has k ∧ Terms.SumsTo x [(d, .exact a)] (v - k)) ↔ _
    simp only [number constant, number factor, exists_eq_left, Terms.sumsTo_cons, Terms.sumsTo_nil]
    constructor <;> intro h <;> linarith
  simp only [Holds, takes, exists_eq_left]
  rfl

theorem boundConstraint_spec (outward : k.IsOutward) (inside : d < n)
    (factor : a.value = .fin p) (unit : p = 1 ∨ p = -1) (fits : c.Fits k)
    (proper : c.value ≠ .negInf) :
    (∀ e ∈ if c.isInfinite then [] else [unitConstraint .atLeast d a c], Expressed k n e) ∧
      ∀ x, (∀ e ∈ if c.isInfinite then [] else [unitConstraint .atLeast d a c], e.Holds x) ↔
        .fin (-(p * x.getD d 0)) ≤ c.value := by
  cases finite : c.isInfinite with
  | true =>
    have value : c.value = .posInf := by
      cases value : c.value with
      | fin q => simp [Number.isInfinite, Number.infinitySign, ExtRat.infinitySign, value] at finite
      | negInf => exact absurd value proper
      | posInf => rfl
    simp [value]
  | false =>
    obtain ⟨t, value⟩ := Number.exists_value finite
    simp only [Bool.false_eq_true, if_false, mem_singleton, forall_eq]
    refine ⟨expressed_unitConstraint outward inside factor unit value (value ▸ fits.value)
      (.inr rfl), fun x => ?_⟩
    rw [holds_unitConstraint factor value, value, fin_le_fin, neg_le_iff_add_nonneg']
    rfl

end Unit

section

variable (outward : k.IsOutward)
include outward

theorem rangeConstraints_spec (inside : d < s.size) (fits : i.Fits k) (proper : i.IsProper) :
    (∀ c ∈ rangeConstraints k i d, Expressed k s.size c) ∧
      ∀ x, (∀ c ∈ rangeConstraints k i d, c.Holds x) ↔ i.Has (x.getD d 0) := by
  have minusOne : (Number.one k).neg.value = .fin (-1) := by rw [Number.neg, outward.unit]; rfl
  have exported : rangeConstraints k i d =
      if i.isPoint then [unitConstraint .equal d (.one k) i.lo.neg] else
        (if i.lo.neg.isInfinite then [] else [unitConstraint .atLeast d (.one k) i.lo.neg]) ++
          if i.hi.isInfinite then [] else [unitConstraint .atLeast d (Number.one k).neg i.hi] := by
    rw [Number.isInfinite_neg]
    rfl
  rw [exported]
  split
  · rename_i point
    simp only [Interval.isPoint, Number.same, Bool.and_eq_true, decide_eq_true_eq,
      Bool.not_eq_true'] at point
    obtain ⟨q, lower⟩ := Number.exists_value point.2
    have isAt : i.IsAt q := ⟨lower, point.1 ▸ lower⟩
    have opposite : i.lo.neg.value = .fin (-q) := by rw [Number.neg, lower]; rfl
    simp only [mem_singleton, forall_eq]
    refine ⟨expressed_unitConstraint outward inside outward.unit (.inl rfl) opposite
      (opposite ▸ fits.lo.value.neg) (.inl rfl), fun x => ?_⟩
    rw [holds_unitConstraint outward.unit opposite, isAt.has_iff, one_mul]
    exact add_neg_eq_zero
  · have lower := boundConstraint_spec (c := i.lo.neg) outward inside outward.unit (.inl rfl)
      ⟨fits.lo.kind, fits.lo.value.neg⟩
      fun h => proper.lower ((ExtRat.neg_neg _).symm.trans (congrArg neg h))
    have upper := boundConstraint_spec outward inside minusOne (.inr rfl) fits.hi proper.upper
    simp only [forall_mem_append]
    refine ⟨⟨lower.1, upper.1⟩, fun x => ?_⟩
    rw [lower.2, upper.2, neg_one_mul, neg_neg, one_mul]
    exact and_congr_left' (ExtRat.fin_le_neg.trans (by rw [neg_neg]))

theorem toLinear_spec (fits : (ranges s bs).Fits k) (proper : (ranges s bs).IsProper) :
    (∀ c ∈ (ranges s bs).toLinear k, Expressed k s.size c) ∧
      ∀ x, (∀ c ∈ (ranges s bs).toLinear k, c.Holds x) ↔ InBox bs x := by
  have place {d : Nat} {i : Interval} (found : bs[d]? = some i) :=
    rangeConstraints_spec outward
      (fits.formed.1 ▸ lt_of_getElem? found)
      (fits.bounds i (mem_of_getElem? found)) (proper i (mem_of_getElem? found))
  have mem {c : LinearConstraint} : c ∈ (ranges s bs).toLinear k ↔
      ∃ i d, bs[d]? = some i ∧ c ∈ rangeConstraints k i d := by
    simp [toLinear, mem_zipIdx_iff_getElem?]
  constructor
  · intro c exported
    obtain ⟨i, d, found, constraint⟩ := mem.1 exported
    exact (place found).1 c constraint
  · intro x
    constructor
    · intro all d i found
      exact ((place found).2 x).1 fun c constraint => all c (mem.2 ⟨i, d, found, constraint⟩)
    · intro inBox c exported
      obtain ⟨i, d, found, constraint⟩ := mem.1 exported
      exact ((place found).2 x).2 (inBox d i found) c constraint

/-! ### Import -/

theorem gives_propagate_unsatisfiable :
    Op.Gives (propagate k (ranges s bs) [.unsatisfiable]) (empty s) := by
  have constant : unsatisfiable.form.constant.IsAt k (-1) :=
    Coefficient.isAt_exact outward (by decide +kernel) outward.represents_one.neg
  have excluded : Comparison.atLeast.excludes none
      (unsatisfiable.form.constant.toIntervalOf k) = true := by
    by_contra open'
    have holds : Comparison.atLeast.Holds none (-1) := Comparison.holds_of_not_excludes
      constant.interval (.inr (.inl rfl)) (by simpa using open')
    exact absurd holds (by norm_num [Comparison.Holds])
  have applied : apply k s .unsatisfiable bs = .ok none := by
    change (unsatisfiable.form.eval bs k >>= _) = _
    rw [LinearForm.eval_of_nonzero_nil outward rfl]
    exact if_pos excluded
  refine Op.gives_readBind fun request => ?_
  obtain ⟨n, limit⟩ : ∃ n, roundLimit request.options = n + 1 :=
    Nat.exists_eq_add_one.2 ((Nat.succ_pos 9).trans_le (Nat.le_max_left ..))
  have none : rounds k s [.unsatisfiable] (roundLimit request.options) bs = .ok none := by
    rw [limit, rounds, round, applied]
    rfl
  exact (Op.gives_ofExcept none).bind (Op.gives_pure _)

theorem returns_propagate_toLinear (fits : (ranges s bs).Fits k) (proper : (ranges s bs).IsProper) :
    Op.Returns request (propagate k ((core k).top s) ((ranges s bs).toLinear k)) fun w =>
      w.IsFormed ∧ w.space = s ∧ (∀ x, w.HasPoint x ↔ (ranges s bs).HasPoint x) ∧
        ∀ x, w.InRanges x → ∀ y, AreNear s x y → InBox bs y := by
  obtain ⟨expressed, describes⟩ := toLinear_spec outward fits proper
  have valid : ∀ c ∈ (ranges s bs).toLinear k, c.form.Valid ∧ c.form.Below s.size :=
    fun c mem => ⟨(expressed c mem).plain.valid, (expressed c mem).plain.below⟩
  have sound : Op.Ensures request False
      (propagate k ((core k).top s) ((ranges s bs).toLinear k)) _ :=
    ensures_propagate outward (fits_top k s) valid
  have exactly := exactly_propagate outward (fits_top k s) valid
    fun c mem => (expressed c mem).sharp
  refine (((sound.returns not_false).reports exactly).returns_of_settles
    (settles_propagate fun c mem => (expressed c mem).expressed)).mono fun w h => ?_
  obtain ⟨⟨formed, space, keeps, within⟩, near⟩ := h
  have inside (x : List Rat) (inRanges : w.InRanges x) y (close : AreNear s x y) : InBox bs y := by
    refine (describes y).1 fun c mem => ?_
    have holds := near x inRanges y close c mem
    rwa [loosen_eq_self fun strict => absurd strict (expressed c mem).loose] at holds
  refine ⟨formed.formed, space, fun x => ⟨fun has => ?_, fun has => ?_⟩, inside⟩
  · exact ⟨(within x has).isPoint, inside x has.inRanges x (areNear_self s x)⟩
  · refine keeps x ⟨has.1, fun d i found => ?_⟩ fun c mem => ((describes x).2 has.2 c mem).admits
    rw [eq_of_mem_replicate (mem_of_getElem? found)]
    exact ⟨negInf_le _, le_posInf _⟩

end

section Equality

variable {xs ys : List Interval} {f : Nat → Rat} {j : Interval} {r : Rat}

theorem equates_iff (same : v.space = w.space) :
    (domain k).Equates query v w ↔ v.within w = true ∧ w.within v = true := by
  have tested {a b : Box} (same : a.space = b.space) : Op.Gives (isLeq a b) (a.within b) := by
    rw [isLeq, requireSame, if_pos same]
    exact Op.gives_pure _
  have equal : Op.Gives ((domain k).isEq v w) (v.within w && w.within v) := by
    refine (tested same).bind ?_
    cases v.within w with
    | false => exact Op.gives_pure _
    | true => exact tested same.symm
  rw [Domain.Equates, equal.returns_iff, Bool.and_eq_true]

theorem has_of_near (length : xs.length = s.size)
    (near : ∀ x, InBox xs x → ∀ y, AreNear s x y → InBox ys y)
    (members : ∀ (d : Nat) (i : Interval), xs[d]? = some i → i.Has (f d))
    (left : xs[d]? = some i) (right : ys[d]? = some j) (has : i.Has q)
    (close : IsNear (s.isInt d) q r) : j.Has r := by
  have inside : d < s.size := length ▸ lt_of_getElem? left
  have replaced := near ((range s.size).map (Function.update f d q))
    ((inBox_map_range length).2 fun e l found => ?_)
    ((range s.size).map (Function.update f d r)) fun e => ?_
  · have entry := replaced d j right
    rwa [getD_map_range _ inside, Function.update_self] at entry
  · rcases eq_or_ne e d with rfl | apart
    · rwa [Function.update_self, ← Option.some.inj (left.symm.trans found)]
    · rw [Function.update_of_ne apart]
      exact members e l found
  · rcases eq_or_ne e d with rfl | apart
    · rwa [getD_map_range _ inside, getD_map_range _ inside, Function.update_self,
        Function.update_self]
    · refine .inl ?_
      rcases lt_or_ge e s.size with below | above
      · rw [getD_map_range _ below, getD_map_range _ below, Function.update_of_ne apart,
          Function.update_of_ne apart]
      · simp [above]

theorem within_of_near (formed : (ranges s xs).IsFormed) (formed' : (ranges s ys).IsFormed)
    (near : ∀ x, InBox xs x → ∀ y, AreNear s x y → InBox ys y)
    (members : ∀ (d : Nat) (i : Interval), xs[d]? = some i → i.Has (f d)) :
    (ranges s xs).within (ranges s ys) = true := by
  refine within_ranges.2 fun d i j left right => ?_
  refine Interval.leq_of_members (formed.2 i (mem_of_getElem? left))
    (members d i left).isProper (fun (int : false = true) => nomatch int)
    (formed'.2 j (mem_of_getElem? right)) fun q has _ => ?_
  exact has_of_near formed.1 near members left right has (.inl rfl)

theorem IsIntegral.within_of_points (integral : (ranges s xs).IsIntegral)
    (formed : (ranges s xs).IsFormed) (proper : (ranges s xs).IsProper)
    (formed' : (ranges s ys).IsFormed)
    (points : ∀ x, (ranges s xs).HasPoint x → (ranges s ys).HasPoint x)
    (members : ∀ (d : Nat) (i : Interval), xs[d]? = some i →
      i.Has (f d) ∧ (s.isInt d = true → (f d).den = 1)) :
    (ranges s xs).within (ranges s ys) = true := by
  refine within_ranges.2 fun d i j left right => ?_
  have inside : d < s.size := formed.1 ▸ lt_of_getElem? left
  refine Interval.leq_of_members (formed.2 i (mem_of_getElem? left))
    (proper i (mem_of_getElem? left)) (integral d i left)
    (formed'.2 j (mem_of_getElem? right)) fun q has integer => ?_
  have moved := points _ <| hasPoint_map_range (f := Function.update f d q) formed.1
    fun e l found => ?_
  · have entry := moved.2 d j right
    rwa [getD_map_range _ inside, Function.update_self] at entry
  · rcases eq_or_ne e d with rfl | apart
    · rw [Function.update_self, ← Option.some.inj (left.symm.trans found)]
      exact ⟨has, integer⟩
    · rw [Function.update_of_ne apart]
      exact members e l found

theorem isIntegral_of_near (formed : (ranges s xs).IsFormed) (formed' : (ranges s ys).IsFormed)
    (proper : (ranges s ys).IsProper) (near : ∀ x, InBox xs x → ∀ y, AreNear s x y → InBox ys y)
    (within : (ranges s xs).within (ranges s ys) = true)
    (within' : (ranges s ys).within (ranges s xs) = true) : (ranges s ys).IsIntegral := by
  have paired {d : Nat} {j : Interval} (right : ys[d]? = some j) : ∃ i, xs[d]? = some i ∧
      i.lo.value = j.lo.value ∧ i.hi.value = j.hi.value := by
    have inside := formed'.1 ▸ lt_of_getElem? right
    obtain ⟨i, left⟩ : ∃ i, xs[d]? = some i := ⟨_, getElem?_eq_getElem (formed.1 ▸ inside)⟩
    have full := formed.2 i (mem_of_getElem? left)
    have full' := formed'.2 j (mem_of_getElem? right)
    have below := (Interval.leq_iff full full').1 (within_ranges.1 within d i j left right)
    have above := (Interval.leq_iff full' full).1 (within_ranges.1 within' d j i right left)
    exact ⟨i, left, above.1.antisymm below.1, below.2.antisymm above.2⟩
  have proper' : ∀ i ∈ xs, i.IsProper := by
    intro i mem
    obtain ⟨d, left⟩ := getElem?_of_mem mem
    have inside := formed.1 ▸ lt_of_getElem? left
    have right := getElem?_eq_getElem (formed'.1 ▸ inside)
    obtain ⟨_, left', lower, upper⟩ := paired right
    obtain rfl := Option.some.inj (left.symm.trans left')
    have bounds := proper _ (mem_of_getElem? right)
    exact ⟨lower ▸ bounds.lower, upper ▸ bounds.upper⟩
  obtain ⟨f, members⟩ := exists_members formed.2 proper'
    fun _ _ _ (int : false = true) => nomatch int
  intro d j right int
  obtain ⟨i, left, lower, upper⟩ := paired right
  have order := Interval.isEmpty_eq_false_iff.1 (formed.2 i (mem_of_getElem? left))
  have close {q r : Rat} (has : i.Has q) next : j.Has r :=
    has_of_near formed.1 near (fun e l found => (members e l found).1) left right has
      (.inr ⟨int, next⟩)
  constructor
  · intro q bound
    have inside := (close ⟨(lower.trans bound).le, (lower.trans bound) ▸ order⟩ (.inl rfl)).1
    rw [bound, fin_le_fin] at inside
    rw [inside.antisymm (Rat.floor_le q), Rat.den_intCast]
  · intro q bound
    have inside := (close ⟨(upper.trans bound) ▸ order, (upper.trans bound).ge⟩ (.inr rfl)).2
    rw [bound, fin_le_fin] at inside
    rw [← inside.antisymm Rat.le_ceil, Rat.den_intCast]

end Equality

theorem roundTrip (outward : k.IsOutward) (fits : v.Fits k) (proper : v.IsProper) :
    (domain k).RoundTrip request request' v fun w => w.space = v.space ∧
      (∀ x, w.HasPoint x ↔ v.HasPoint x) ∧ ((domain k).Equates query w v ↔ v.IsIntegral) := by
  refine (Op.gives_pure (v.toLinear k)).returns ?_
  cases v with
  | empty s =>
    refine (gives_propagate_unsatisfiable outward).returns ⟨rfl, fun x => .rfl, ?_⟩
    exact iff_of_true ((equates_iff rfl).2 ⟨rfl, rfl⟩) trivial
  | ranges s bs =>
    refine (returns_propagate_toLinear outward fits proper).mono fun w h => ?_
    obtain ⟨formed, space, points, near⟩ := h
    refine ⟨space, points, (equates_iff space).trans ⟨fun h => ?_, fun integral => ?_⟩⟩
    · cases w with
      | empty t => exact absurd h.2 (by simp [within])
      | ranges t xs =>
        obtain rfl : t = s := space
        exact isIntegral_of_near formed fits.formed proper near h.1 h.2
    · obtain ⟨f, members⟩ := exists_members fits.formed.2 proper integral
      have inside := (points _).2 (hasPoint_map_range fits.formed.1 members)
      cases w with
      | empty t => exact inside.elim
      | ranges t xs =>
        obtain rfl : t = s := space
        refine ⟨within_of_near formed fits.formed near fun d i => inside.2 d i,
          integral.within_of_points fits.formed proper formed (fun x => (points x).2) members⟩

end Box

end Enclosure
