import Enclosure.Proofs.Box.Soundness
import Enclosure.Proofs.Reports

/-!
# Exact reports of boxes

A constraint with one dimension narrows its range to the quotients that satisfy it, where the
coefficient is a number and nothing needs rounding.
-/

namespace Enclosure

open ExtRat Op Interval

/-! ### Forms with numbers -/

/-- The coefficient is a finite number, which needs no rounding in the kind. -/
structure Coefficient.IsAt (k : Kind) (c : Coefficient) (p : Rat) : Prop where
  number : c.rational? = some p
  interval : (c.toIntervalOf k).IsAt p

def LinearForm.IsSharp (k : Kind) (f : LinearForm) : Prop :=
  ∃ t, f.constant.IsAt k t ∧
    ∀ e ∈ f.nonzero, ∃ p, e.2.IsAt k p ∧ k.Represents (.fin (-t * p⁻¹))

/-- The constant and all coefficients are finite numbers. -/
structure LinearForm.IsNumeric (f : LinearForm) : Prop where
  constant : f.constant.rational?.isSome = true
  entries : ∀ e ∈ f.entries, e.2.rational?.isSome = true

def Comparison.loosen : Comparison → Comparison
  | above => atLeast
  | c => c

def LinearConstraint.loosen (c : LinearConstraint) : LinearConstraint :=
  if c.form.nonzero = [] then c else { c with comparison := c.comparison.loosen }

section Forms

variable {f : LinearForm} {k : Kind} {d : Nat} {c : Coefficient} {t p v : Rat} {x : List Rat}
  {bounds : List Interval}

theorem Coefficient.IsAt.ne_zero (h : c.IsAt k p) (nonzero : c.isZero = false) : p ≠ 0 := by
  intro zero
  rw [(Coefficient.isZero_of_rational? h.number).2 zero] at nonzero
  cases nonzero

theorem Coefficient.exists_isAt_rational (finite : c.rational?.isSome = true) :
    ∃ p, c.IsAt .rational p := by
  obtain ⟨p, number⟩ := Option.isSome_iff_exists.1 finite
  refine ⟨p, number, ?_⟩
  cases c with
  | exact x =>
    have value : x.value = .fin p := Coefficient.value_of_rational? number
    exact ⟨(x.value_convert_rational _).trans value, (x.value_convert_rational _).trans value⟩
  | range i => cases number

theorem Coefficient.isAt_exact {x : Number} (outward : k.IsOutward) (value : x.value = .fin p)
    (exact : k.Represents (.fin p)) : (Coefficient.exact x).IsAt k p := by
  have converted (r : Rounding) : (x.convert k r).value = .fin p := by
    unfold Number.convert
    split
    · exact value
    · change k.round r x.value = .fin p
      rw [value, outward.round_eq exact]
  exact ⟨Coefficient.rational?_exact value, converted .down, converted .up⟩

theorem LinearForm.IsNumeric.isSharp (numeric : f.IsNumeric) : f.IsSharp .rational := by
  obtain ⟨t, constant⟩ := Coefficient.exists_isAt_rational numeric.constant
  refine ⟨t, constant, fun e mem => ?_⟩
  obtain ⟨p, coefficient⟩ :=
    Coefficient.exists_isAt_rational (numeric.entries e (mem_nonzero.1 mem).1)
  exact ⟨p, coefficient, trivial⟩

theorem LinearForm.eval_of_nonzero_nil (outward : k.IsOutward) (none : f.nonzero = []) :
    f.eval bounds k = .ok (f.constant.toIntervalOf k) := by
  rw [eval, Coefficient.checkedIntervalOf_eq outward, none]
  rfl

theorem LinearForm.nonzero_without (single : f.nonzero = [(d, c)]) :
    (f.without d).nonzero = [] := by
  have filtered : (f.without d).nonzero = f.nonzero.filter (·.1 ≠ d) := by
    rw [nonzero, entries_without, nonzero, List.filter_filter, List.filter_filter]
    simp only [Bool.and_comm]
  rw [filtered, single]
  simp

theorem LinearForm.takes_of_nonzero_nil (constant : f.constant.IsAt k t) (none : f.nonzero = []) :
    f.Takes x v ↔ v = t := by
  rw [takes_iff_nonzero, none]
  simp [Coefficient.has_of_rational? constant.number, sub_eq_zero]

theorem LinearForm.takes_of_nonzero_singleton (constant : f.constant.IsAt k t)
    (coefficient : c.IsAt k p) (single : f.nonzero = [(d, c)]) :
    f.Takes x v ↔ v = p * x.getD d 0 + t := by
  rw [takes_iff_nonzero, single]
  simp only [Coefficient.has_of_rational? constant.number, exists_eq_left, Terms.sumsTo_cons,
    Coefficient.has_of_rational? coefficient.number, Terms.sumsTo_nil]
  constructor <;> intro h <;> linarith

theorem LinearConstraint.loosen_eq_self {c : LinearConstraint}
    (loose : c.comparison = .above → c.form.nonzero = []) : c.loosen = c := by
  unfold loosen
  split
  · rfl
  · rename_i some
    have kept : c.comparison.loosen = c.comparison := by
      cases kind : c.comparison with
      | above => exact absurd (loose kind) some
      | _ => rfl
    rw [kept]

theorem Comparison.holds_of_not_excludes {comparison : Comparison} {modulus : Option Number}
    {i : Interval} (isAt : i.IsAt p)
    (used : comparison = .equal ∨ comparison = .atLeast ∨ comparison = .above)
    (h : comparison.excludes none i = false) : comparison.Holds modulus p := by
  unfold excludes at h
  rw [isAt.isEmpty, Bool.false_or] at h
  rcases used with rfl | rfl | rfl
  · rw [Bool.not_eq_false', containsZero_iff, isAt.has_iff] at h
    exact h.symm
  · rwa [decide_eq_false_iff_not, not_lt, Number.sign, sign_nonneg, isAt.hi] at h
  · rwa [decide_eq_false_iff_not, Number.sign, sign_nonpos, isAt.hi, fin_le_fin, not_le] at h

end Forms

namespace Box

variable {k : Kind} {s : Space} {isInt : Bool} {comparison : Comparison}
  {modulus : Option Number} {a rest current i : Interval} {bs bs' : List Interval} {p q r t : Rat}
  {x y : List Rat} {c : LinearConstraint} {cs : List LinearConstraint} {v w : Box}
  {request : Request}

/-! ### One dimension -/

def IsNear (isInt : Bool) (q r : Rat) : Prop :=
  r = q ∨ isInt = true ∧ (r = q.floor ∨ r = q.ceil)

theorem IsNear.between {lo hi : ExtRat} (near : IsNear isInt q r) (lower : lo.ceil ≤ .fin q)
    (upper : .fin q ≤ hi.floor) : lo ≤ .fin r ∧ .fin r ≤ hi := by
  rcases near with rfl | ⟨-, rfl | rfl⟩
  · exact ⟨(le_ceil _).trans lower, upper.trans (floor_le _)⟩
  · have below : fin q.floor ≤ .fin q := fin_le_fin.2 (Rat.floor_le q)
    exact ⟨(le_ceil _).trans (ceil_le_fin_floor lower), (below.trans upper).trans (floor_le _)⟩
  · have above : fin q ≤ .fin q.ceil := fin_le_fin.2 (Rat.le_ceil)
    exact ⟨(le_ceil _).trans (lower.trans above), (fin_ceil_le_floor upper).trans (floor_le _)⟩

theorem has_of_has_fit (outward : k.IsOutward) (fits : i.Fits k) (h : (fit k isInt i).Has q)
    (near : IsNear isInt q r) : i.Has r := by
  unfold fit at h
  rw [fits.isOf.convert_eq] at h
  dsimp only at h
  split at h
  · unfold canonical at h
    split at h
    · change (bottom i.lo.ceil.kind).Has q at h
      rw [(Number.fits_ceil fits.lo.kind).kind] at h
      exact absurd h.not_isEmpty (by simp [isEmpty_bottom outward])
    · obtain ⟨lower, upper⟩ := h
      rw [Number.value_ceil outward fits.lo] at lower
      rw [Number.value_floor outward fits.hi] at upper
      exact near.between lower upper
  · rename_i unrounded
    obtain rfl : r = q := near.resolve_right fun rounded => unrounded <| by
      simp [rounded.1, h.not_isEmpty]
    exact h

theorem has_of_has_strictInteger {lower : Bool} (rational : i.IsRational)
    (h : (strictInteger i lower).Has q) : i.Has q := by
  have one : (Number.one i.kind).value = .fin 1 := by
    rw [kind, rational.lo]
    rfl
  have integer {n : Number} (whole : n.isInteger = true) : ∃ z, n.value = .fin z := by
    unfold Number.isInteger at whole
    cases value : n.value <;> simp [value, isInteger] at whole ⊢
  unfold strictInteger at h
  split at h
  · rename_i moved
    obtain ⟨z, value⟩ := integer (Bool.and_eq_true_iff.1 moved).2
    have next : fin z + .fin 1 ≤ .fin q := by
      rw [← one, ← Number.value_add_of_fin rational.lo value .down]
      exact h.1
    rw [fin_add_fin, fin_le_fin] at next
    refine ⟨?_, h.2⟩
    rw [value, fin_le_fin]
    linarith
  split at h
  · rename_i moved
    obtain ⟨z, value⟩ := integer (Bool.and_eq_true_iff.1 moved).2
    have next : .fin q ≤ fin z + .fin (-1) := by
      have opposite : (Number.one i.kind).neg.value = .fin (-1) := by rw [Number.neg, one]; rfl
      rw [← opposite, ← Number.value_add_of_fin rational.hi value .up]
      exact h.2
    rw [fin_add_fin, fin_le_fin] at next
    refine ⟨h.1, ?_⟩
    rw [value, fin_le_fin]
    linarith
  · exact h

theorem has_target_div_iff (outward : k.IsOutward) (ha : a.IsOf k) (hr : rest.IsOf k)
    (coefficient : a.IsAt p) (nonzero : p ≠ 0) (constant : rest.IsAt t)
    (exact : k.Represents (.fin (-t * p⁻¹)))
    (used : comparison = .equal ∨ comparison = .atLeast ∨ comparison = .above) :
    ((target k comparison rest).div a).Has q ↔ comparison.loosen.Holds modulus (p * q + t) := by
  have low : k.Represents (rest.hi.value.neg.mul (fin p).inv) := by rwa [constant.hi]
  rcases used with rfl | used
  · have full : rest.neg.isEmpty = false :=
      (has_neg.2 ((constant.has_iff).2 (neg_neg t))).not_isEmpty
    have high : k.Represents (rest.lo.value.neg.mul (fin p).inv) := by rwa [constant.lo]
    change (rest.neg.div a).Has q ↔ p * q + t = 0
    rw [has_div_isAt outward hr.neg ha full coefficient nonzero low high, has_neg, constant.has_iff]
    constructor <;> intro h <;> linarith
  · have kind : (target k comparison rest).IsOf k := isOf_target hr
    have full : (target k comparison rest).isEmpty = false := isEmpty_target_of_inequality used
    have loose : comparison.loosen = .atLeast := by rcases used with rfl | rfl <;> rfl
    rw [target_of_inequality used] at kind full ⊢
    have high : k.Represents (posInf.mul (fin p).inv) := k.represents_infinity _
    rw [has_div_isAt outward kind ha full coefficient nonzero low high, loose]
    change rest.hi.value.neg ≤ fin (p * q) ∧ fin (p * q) ≤ .posInf ↔ 0 ≤ p * q + t
    rw [and_iff_left (le_posInf _), constant.hi]
    change fin (-t) ≤ .fin (p * q) ↔ _
    rw [fin_le_fin]
    constructor <;> intro h <;> linarith

theorem holds_of_has_narrow (outward : k.IsOutward) (ha : a.IsOf k) (hr : rest.IsOf k)
    (hc : current.Fits k) (coefficient : a.IsAt p) (nonzero : p ≠ 0) (constant : rest.IsAt t)
    (exact : k.Represents (.fin (-t * p⁻¹)))
    (used : comparison = .equal ∨ comparison = .atLeast ∨ comparison = .above)
    (h : (narrow k isInt comparison a rest current).Has q) (near : IsNear isInt q r) :
    comparison.loosen.Holds modulus (p * r + t) := by
  rw [← has_target_div_iff outward ha hr coefficient nonzero constant exact used]
  have fits : ((target k comparison rest).div a).Fits k := fits_quotient ha hr
  unfold narrow at h
  split at h
  · rename_i strict
    simp only [Bool.and_eq_true, decide_eq_true_eq] at strict
    obtain ⟨⟨⟨-, -⟩, rfl⟩, -⟩ := strict
    have moved := (has_meet outward hc (fits_fit (fits_strictInteger fits))).1 h
    exact has_of_has_strictInteger (isOf_rational_iff.1 fits.isOf)
      (has_of_has_fit outward (fits_strictInteger fits) moved.2 near)
  · exact has_of_has_fit outward fits ((has_meet outward hc (fits_fit fits)).1 h).2 near

/-! ### All dimensions -/

def AreNear (s : Space) (x y : List Rat) : Prop :=
  ∀ d, IsNear (s.isInt d) (x.getD d 0) (y.getD d 0)

theorem areNear_self (s : Space) (x : List Rat) : AreNear s x x := fun _ => .inl rfl

theorem usable?_of_expresses (h : expresses c = true) : c.usable? = some c.comparison ∧
    (c.comparison = .equal ∨ c.comparison = .atLeast ∨ c.comparison = .above) := by
  unfold expresses at h
  unfold LinearConstraint.usable?
  cases kind : c.comparison <;> simp_all

theorem holds_of_apply (outward : k.IsOutward) (valid : c.form.Valid)
    (below : c.form.Below bs.length) (fits : ∀ i ∈ bs, i.Fits k) (sharp : c.form.IsSharp k)
    (expressed : expresses c = true) (run : apply k s c bs = .ok (some bs')) (inBox : InBox bs' x)
    (near : AreNear s x y) : c.loosen.Holds y := by
  obtain ⟨t, constant, terms⟩ := sharp
  obtain ⟨usable, used⟩ := usable?_of_expresses expressed
  obtain ⟨full, value, -⟩ := LinearForm.eval_spec outward valid below
    fun i mem => (fits i mem).isOf.toValid
  unfold apply at run
  rw [usable, value] at run
  change (if c.comparison.excludes none full = true then .ok none
    else if c.comparison = .notEqual then .ok (some bs)
    else narrowAll k s c.comparison c.form c.form.nonzero bs) = .ok (some bs') at run
  split at run
  · cases run
  rename_i open'
  rw [if_neg (by rcases used with h | h | h <;> simp [h])] at run
  have few : c.form.nonzero.length ≤ 1 := by
    simp only [expresses, Bool.and_eq_true, decide_eq_true_eq] at expressed
    exact expressed.1.2
  unfold LinearConstraint.loosen
  cases nonzero : c.form.nonzero with
  | nil =>
    rw [LinearForm.eval_of_nonzero_nil outward nonzero, Except.ok.injEq] at value
    subst value
    exact ⟨t, (LinearForm.takes_of_nonzero_nil constant nonzero).2 rfl,
      Comparison.holds_of_not_excludes constant.interval used (by simpa using open')⟩
  | cons e rest =>
    obtain ⟨d, a⟩ := e
    obtain rfl : rest = [] := by simpa [nonzero] using few
    have mem : (d, a) ∈ c.form.nonzero := by simp [nonzero]
    obtain ⟨entry, notZero⟩ := LinearForm.mem_nonzero.1 mem
    obtain ⟨p, coefficient, exact⟩ := terms (d, a) mem
    have inside : d < bs.length := below (d, a) mem
    have apart : p ≠ 0 := coefficient.ne_zero notZero
    rw [nonzero, narrowAll, if_neg (by simp [coefficient.interval.containsZero apart]),
      LinearForm.eval_of_nonzero_nil outward (LinearForm.nonzero_without nonzero), fetch,
      List.getElem?_eq_getElem inside] at run
    change (if Interval.isEmpty _ = true then .ok none else .ok (some (bs.set d _))) =
      Except.ok (some bs') at run
    split at run
    · cases run
    obtain rfl := Option.some.inj (Except.ok.inj run)
    refine ⟨_, (LinearForm.takes_of_nonzero_singleton constant coefficient nonzero).2 rfl, ?_⟩
    exact holds_of_has_narrow outward
      ((valid.coefficients (d, a) entry).isOf_toIntervalOf outward.directed)
      (valid.constant.isOf_toIntervalOf outward.directed) (fits _ (List.getElem_mem inside))
      coefficient.interval apart constant.interval exact used
      (inBox d _ (List.getElem?_set_self inside)) (near d)

def InRanges : Box → List Rat → Prop
  | empty _, _ => False
  | ranges _ bs, x => InBox bs x

theorem HasPoint.inRanges (h : v.HasPoint x) : v.InRanges x := by
  cases v with
  | empty s => exact h
  | ranges s bs => exact h.2

theorem inBox_of_make (made : make s bs = .ok w) (inside : w.InRanges x) : InBox bs x := by
  unfold make at made
  split at made
  · cases made
  · obtain rfl := Except.ok.inj made
    split at inside
    · exact inside.elim
    · exact inside

section

variable (outward : k.IsOutward) (hv : v.Fits k)
  (valid : ∀ c ∈ cs, c.form.Valid ∧ c.form.Below v.space.size) (sharp : ∀ c ∈ cs, c.form.IsSharp k)
include outward hv valid sharp

theorem exactly_propagate :
    Exactly (propagate k v cs) fun w => ∀ x, w.InRanges x → ∀ y, AreNear v.space x y →
      ∀ c ∈ cs, c.loosen.Holds y := by
  cases v with
  | empty s => exact exactly_pure fun x inside => inside.elim
  | ranges s bs =>
    obtain ⟨size, -⟩ := hv.formed
    have valid : ∀ c ∈ cs, c.form.Valid ∧ c.form.Below bs.length := size.symm ▸ valid
    rw [propagate]
    refine exactly_markInexactIf (exactly_read fun request => ?_)
    have rounded : 0 < roundLimit request.options :=
      (Nat.succ_pos 9).trans_le (Nat.le_max_left ..)
    obtain ⟨result, run, -, applied⟩ :=
      rounds_spec outward (roundLimit request.options) valid hv.bounds
    rw [run]
    cases result with
    | none => exact exactly_pure fun _ x inside => inside.elim
    | some bs' =>
      refine exactly_ofExcept fun w made expressed x inside y near c mem => ?_
      have all : ∀ c ∈ cs, expresses c = true := by simpa using expressed
      obtain ⟨_, _, below, fits, ran, within⟩ := applied rounded bs' rfl c mem
      exact holds_of_apply outward (valid c mem).1 below fits (sharp c mem) (all c mem) ran
        (within x (inBox_of_make made inside)) near

theorem reports_propagate :
    Reports request (propagate k v cs)
      (fun w => w.Fits k ∧ w.space = v.space ∧
        (∀ x, v.HasPoint x → (∀ c ∈ cs, c.Admits x) → w.HasPoint x) ∧
        ∀ x, w.HasPoint x → v.HasPoint x)
      fun w => ∀ x, w.HasPoint x → ∀ c ∈ cs, c.loosen.Holds x := by
  have sound : Ensures request False (propagate k v cs) _ := ensures_propagate outward hv valid
  have exactly := (exactly_propagate outward hv valid sharp).mono
    fun w holds x (inside : w.HasPoint x) => holds x inside.inRanges x (areNear_self _ x)
  exact (sound.returns not_false).reports exactly

end

theorem settles_propagate (expressed : ∀ c ∈ cs, expresses c = true) :
    Settles request (propagate k v cs) fun _ => True := by
  cases v with
  | empty s => exact settles_pure trivial
  | ranges s bs =>
    rw [propagate, if_neg (by simpa using expressed)]
    refine .readBind ?_
    refine .bind (settles_ofExcept fun _ _ => trivial) fun result _ => ?_
    cases result with
    | none => exact settles_pure trivial
    | some bs' => exact settles_ofExcept fun _ _ => trivial

/-! ### Joins -/

theorem has_of_has_join {j : Interval} (hi : i.isEmpty = false) (hj : j.isEmpty = false)
    (h : (i.join j).Has q) : (i.leq j = true → j.Has q) ∧ (j.leq i = true → i.Has q) := by
  rw [Interval.join, hi, hj, if_neg Bool.false_ne_true, if_neg Bool.false_ne_true, Interval.Has,
    Spans, Number.value_min, Number.value_max] at h
  obtain ⟨lower, upper⟩ := h
  refine ⟨fun within => ?_, fun within => ?_⟩
  · obtain ⟨lo, hi⟩ := (leq_iff hi hj).1 within
    exact ⟨min_eq_right lo ▸ lower, max_eq_right hi ▸ upper⟩
  · obtain ⟨lo, hi⟩ := (leq_iff hj hi).1 within
    exact ⟨min_eq_left lo ▸ lower, max_eq_left hi ▸ upper⟩

theorem exactly_join (hv : v.Fits k) (hw : w.Fits k) (same : v.space = w.space) :
    Exactly (v.join w) fun u => ∀ x, u.HasPoint x → v.HasPoint x ∨ w.HasPoint x := by
  have agree : NeverRegains (requireSame .join v w) := by
    rw [requireSame, if_pos same]
    exact exactly_pure trivial
  refine .bind agree fun _ => ?_
  cases v with
  | empty s => exact exactly_pure fun _ x => .inr
  | ranges s xs =>
    cases w with
    | empty t => exact exactly_pure fun _ x => .inl
    | ranges t ys =>
      obtain rfl : s = t := same
      have lengths : xs.length = ys.length := hv.formed.1.trans hw.formed.1.symm
      refine exactly_markInexactIf (exactly_ofExcept fun u made related _ x inside => ?_)
      obtain ⟨_, made', -, -, points⟩ :=
        make_spec (length_zipWith hv.formed hw.formed .join)
      obtain rfl := Except.ok.inj (made'.symm.trans made)
      obtain ⟨point, inBox⟩ := (points x).1 inside
      have both (d : Nat) (i j) left right :=
        has_of_has_join (hv.formed.2 i (List.mem_of_getElem? left))
          (hw.formed.2 j (List.mem_of_getElem? right))
          (inBox d (i.join j) (by rw [List.getElem?_zipWith, left, right]))
      have some : (ranges s xs).within (ranges s ys) = true ∨
          (ranges s ys).within (ranges s xs) = true := by
        simpa [or_iff_not_imp_left] using related
      rcases some with within | within
      · refine .inr ⟨point, fun d j right => ?_⟩
        obtain ⟨i, left⟩ : ∃ i, xs[d]? = some i :=
          ⟨_, List.getElem?_eq_getElem (lengths ▸ lt_of_getElem? right)⟩
        exact (both d i j left right).1 (within_ranges.1 within d i j left right)
      · refine .inl ⟨point, fun d i left => ?_⟩
        obtain ⟨j, right⟩ : ∃ j, ys[d]? = some j :=
          ⟨_, List.getElem?_eq_getElem (lengths ▸ lt_of_getElem? left)⟩
        exact (both d i j left right).2 (within_ranges.1 within d j i right left)

theorem reports_join (hv : v.Fits k) (hw : w.Fits k) (same : v.space = w.space) :
    Reports request (v.join w) (fun u => u.Fits k ∧ u.space = v.space)
      fun u => ∀ x, u.HasPoint x ↔ v.HasPoint x ∨ w.HasPoint x := by
  have sound : Ensures request False (v.join w) _ := ensures_join hv hw same
  exact ((sound.returns not_false).reports (exactly_join hv hw same)).mono
    (fun u h => ⟨h.1, h.2.1⟩) fun u h exact x => ⟨exact x, h.2.2 x⟩

end Box

end Enclosure
