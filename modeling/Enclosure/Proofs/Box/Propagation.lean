import Enclosure.Proofs.Box.Operations
import Enclosure.Proofs.IntegerRounding
import Enclosure.Proofs.PointIntervals

/-!
# Constraints on boxes lose no points

A constraint on a point says that a multiple of one entry is opposite to the rest of the form, or
not below that.
-/

namespace Enclosure

open List ExtRat Interval

/-! ### Forms without one of their terms -/

theorem Terms.Reaches.perm {x : List Rat} {es fs : List (Nat × Coefficient)} {r : ExtRat}
    (h : Terms.Reaches x es r) (perm : es.Perm fs) : Terms.Reaches x fs r := by
  induction perm generalizing r with
  | nil => exact h
  | cons e _ ih =>
    obtain ⟨q, t, spans, rest, rfl⟩ := reaches_cons.1 h
    exact .cons spans (ih rest)
  | swap e f _ =>
    obtain ⟨q, t, spans, rest, rfl⟩ := reaches_cons.1 h
    obtain ⟨_, _, spans', rest', rfl⟩ := reaches_cons.1 rest
    rw [add_left_comm]
    exact .cons spans' (.cons spans rest')
  | trans _ _ ih ih' => exact ih' (ih h)

namespace LinearForm

variable {f : LinearForm} {d : Nat} {c : Coefficient}

theorem entries_without : (f.without d).entries = f.entries.filter (·.1 ≠ d) := rfl

theorem Valid.without (valid : f.Valid) : (f.without d).Valid where
  nodup := valid.nodup.sublist (filter_sublist.map Prod.fst)
  coefficients e mem := valid.coefficients e (mem_of_mem_filter mem)
  constant := valid.constant

theorem Below.without {n : Nat} (below : f.Below n) : (f.without d).Below n := by
  intro e mem
  obtain ⟨entry, nonzero⟩ := mem_nonzero.1 mem
  exact below e (mem_nonzero.2 ⟨mem_of_mem_filter entry, nonzero⟩)

theorem Reaches.split {x : List Rat} {r : ExtRat} (h : f.Reaches x r) (valid : f.Valid)
    (mem : (d, c) ∈ f.entries) :
    ∃ q t, c.Spans q ∧ (f.without d).Reaches x t ∧ q.mul (.fin (x.getD d 0)) + t = r := by
  obtain ⟨k, t, spans, sum, rfl⟩ := h
  have perm : f.entries.Perm ((d, c) :: (f.without d).entries) := by
    obtain ⟨before, after, same⟩ := append_of_mem mem
    have nodup := valid.nodup
    rw [same, map_append, map_cons, nodup_middle, nodup_cons] at nodup
    have others : (before ++ after).filter (·.1 ≠ d) = before ++ after := by
      rw [filter_eq_self]
      intro e other
      simp only [decide_eq_true_eq]
      rintro rfl
      exact nodup.1 (by simpa using mem_map_of_mem (f := Prod.fst) other)
    rw [entries_without, same, filter_append, filter_cons_of_neg (by simp), ← filter_append, others]
    exact perm_middle
  obtain ⟨q, u, member, rest, rfl⟩ := Terms.reaches_cons.1 (sum.perm perm)
  exact ⟨q, u + k, member, ⟨k, u, spans, rest, rfl⟩, (add_assoc _ _ _).symm⟩

end LinearForm

namespace ExtRat

theorem fin_mul_inv {y : ExtRat} {m q : Rat} (nonzero : y ≠ fin 0) (h : y.mul (fin q) = fin m) :
    (fin m).mul y.inv = fin q := by
  cases y with
  | fin p =>
    have pne : p ≠ 0 := fun zero => nonzero (by rw [zero])
    obtain rfl : p * q = m := fin.inj h
    change fin (p * q * p⁻¹) = fin q
    rw [mul_right_comm, mul_inv_cancel₀ pne, one_mul]
  | _ =>
    -- only zero has a finite multiple by an infinity
    obtain rfl : q = 0 := by
      by_contra other
      rcases lt_or_gt_of_ne other with negative | positive
      · simp [mul, sign, infinity, negative, negative.not_gt] at h
      · simp [mul, sign, infinity, positive] at h
    obtain rfl : m = 0 := by simpa [mul, sign, infinity, zero, eq_comm] using h
    exact zero_mul _

end ExtRat

variable {comparison : Comparison} {c : LinearConstraint}

theorem LinearConstraint.ne_congruent_of_usable? (usable : c.usable? = some comparison) :
    comparison ≠ .congruent := by
  unfold usable? at usable
  rintro rfl
  split at usable
  · split at usable
    · split at usable <;> simp at usable
    · simp at usable
  · rename_i other
    exact other (Option.some.inj usable)

theorem LinearConstraint.admits_of_usable? {r : ExtRat} (usable : c.usable? = some comparison)
    (admits : c.comparison.Admits c.modulus r) : comparison.Admits none r := by
  unfold usable? at usable
  cases kind : c.comparison with
  | congruent =>
    rw [kind] at usable admits
    cases r with
    | fin v =>
      cases modulus : c.modulus with
      | none =>
        simp only [modulus, Option.some.injEq] at usable admits
        exact usable ▸ admits
      | some m =>
        simp only [modulus] at usable admits
        split at usable
        · rename_i zero
          obtain ⟨k, multiple⟩ := admits
          rw [isZero_iff.1 zero, mul_comm, zero_mul] at multiple
          exact Option.some.inj usable ▸ fin.inj multiple
        · cases usable
    | _ => simp [Comparison.Admits] at admits
  | _ =>
    rw [kind] at usable admits
    obtain rfl := Option.some.inj usable
    cases r <;> exact admits

namespace Box

variable {k l : Kind} {isInt : Bool} {comparison : Comparison} {a rest current i : Interval}
  {α ρ : ExtRat} {q : Rat}

/-! ### One dimension -/

section

variable (used : comparison = .atLeast ∨ comparison = .above)
include used

theorem neg_le_of_admits {m : Rat} (admits : comparison.Admits none (.fin m + ρ)) :
    .fin (-m) ≤ ρ ∧ (comparison = .above → .fin (-m) < ρ) := by
  cases ρ with
  | negInf =>
    rcases used with rfl | rfl <;> simp [add_eq, add?, Comparison.Admits] at admits
  | posInf => exact ⟨le_posInf _, fun _ => lt_of_le_of_ne (le_posInf _) (by simp)⟩
  | fin t =>
    rcases used with rfl | rfl
    · have nonneg : 0 ≤ m + t := admits
      exact ⟨fin_le_fin.2 (by linarith), by simp⟩
    · have positive : 0 < m + t := admits
      exact ⟨fin_le_fin.2 (by linarith), fun _ => fin_lt_fin.2 (by linarith)⟩

theorem target_of_inequality : target k comparison rest = ⟨rest.hi.neg, .infinity k 1⟩ := by
  rcases used with rfl | rfl <;> rfl

theorem isEmpty_target_of_inequality : (target k comparison rest).isEmpty = false := by
  rw [target_of_inequality used]
  exact isEmpty_eq_false_iff.2 (le_posInf _)

end

theorem has_target_div (directed : k ≠ .double) (lo : rest.lo.kind ≠ .double)
    (hi : rest.hi.kind ≠ .double) (inA : a.Spans α) (apart : a.containsZero = false)
    (inRest : rest.Spans ρ)
    (used : comparison = .equal ∨ comparison = .atLeast ∨ comparison = .above)
    (admits : comparison.Admits none (α.mul (.fin q) + ρ)) :
    ((target k comparison rest).div a).Has q := by
  have nonzero : α ≠ .fin 0 := by
    rintro rfl
    exact Bool.eq_false_iff.1 apart (containsZero_iff.2 inA)
  rcases used with rfl | used
  · -- an equation has a finite multiple of the entry as its only solution
    have zero : α.mul (.fin q) + ρ = .fin 0 := by
      cases total : α.mul (.fin q) + ρ with
      | fin v =>
        rw [total] at admits
        exact congrArg fin admits
      | _ => simp [total, Comparison.Admits] at admits
    obtain ⟨m, t, multiple, rfl, _⟩ := exists_of_add_eq_fin zero
    obtain rfl : t = -m := by linarith
    rw [Has, ← fin_mul_inv nonzero multiple]
    exact .div hi lo (has_neg.2 inRest) inA nonzero
  · have full : (target k comparison rest).isEmpty = false := isEmpty_target_of_inequality used
    have kinds : (target k comparison rest).lo.kind ≠ .double ∧
        (target k comparison rest).hi.kind ≠ .double := by
      rw [target_of_inequality used]
      exact ⟨hi, directed⟩
    by_cases infinite : a.lo.value = .negInf ∨ a.hi.value = .posInf
    · have unbounded : (target k comparison rest).hi.value = .posInf := by
        rw [target_of_inequality used]
        rfl
      rw [div_eq_top kinds.1 kinds.2 full inA.not_isEmpty apart unbounded infinite]
      exact ⟨negInf_le _, le_posInf _⟩
    · -- a finite coefficient
      rw [not_or] at infinite
      obtain ⟨p, rfl⟩ : ∃ p, α = .fin p := by
        cases α with
        | fin p => exact ⟨p, rfl⟩
        | negInf => exact absurd (le_antisymm inA.1 (negInf_le _)) infinite.1
        | posInf => exact absurd (le_antisymm (le_posInf _) inA.2) infinite.2
      have pne : p ≠ 0 := fun zero => nonzero (by rw [zero])
      have below := (neg_le_of_admits used admits).1
      have inTarget : (target k comparison rest).Has (p * q) := by
        rw [target_of_inequality used]
        exact ⟨neg_le_fin.2 (below.trans inRest.2), le_posInf _⟩
      have quotient := Has.div kinds.1 kinds.2 inTarget inA pne
      rwa [mul_div_cancel_left₀ q pne] at quotient

theorem add_one_le_of_lt {p q : Rat} (hp : p.den = 1) (hq : q.den = 1) (h : p < q) : p + 1 ≤ q := by
  rw [← (Rat.den_eq_one_iff p).1 hp, ← (Rat.den_eq_one_iff q).1 hq] at h ⊢
  exact_mod_cast h

theorem has_strictInteger {lower : Bool} (rational : i.IsRational) (h : i.Has q)
    (integer : q.den = 1) (below : lower = true → i.lo.value < .fin q)
    (above : lower = false → .fin q < i.hi.value) : (strictInteger i lower).Has q := by
  have one : (Number.one i.kind).value = .fin 1 := by
    rw [kind, rational.lo]
    rfl
  unfold strictInteger
  split
  · rename_i moved
    obtain ⟨down, whole⟩ := Bool.and_eq_true_iff.1 moved
    refine ⟨?_, h.2⟩
    have strict := below down
    unfold Number.isInteger at whole
    cases value : i.lo.value with
    | fin p =>
      rw [value] at whole strict
      have next : p + 1 ≤ q :=
        add_one_le_of_lt (of_decide_eq_true whole) integer (fin_lt_fin.1 strict)
      exact (Number.add_down_le (by simp [rational.lo]) value.le one.le).trans (fin_le_fin.2 next)
    | _ => simp [value, isInteger] at whole
  split
  · rename_i moved
    obtain ⟨up, whole⟩ := Bool.and_eq_true_iff.1 moved
    refine ⟨h.1, ?_⟩
    have strict := above (by simpa using up)
    unfold Number.isInteger at whole
    cases value : i.hi.value with
    | fin p =>
      rw [value] at whole strict
      have next : q + 1 ≤ p :=
        add_one_le_of_lt integer (of_decide_eq_true whole) (fin_lt_fin.1 strict)
      have opposite : fin (-1) ≤ (Number.one i.kind).neg.value := by
        rw [Number.neg, one]
        exact le_refl _
      refine le_trans ?_ (Number.le_add_up (by simp [rational.hi]) value.ge opposite)
      exact fin_le_fin.2 (by linarith)
    | _ => simp [value, isInteger] at whole
  · exact h

theorem fits_strictInteger {lower : Bool} (fits : i.Fits k) : (strictInteger i lower).Fits k := by
  have one : (Number.one i.lo.kind).IsOf k := fits.lo.kind ▸ Number.isOf_ofExt i.lo.kind _ _
  unfold strictInteger
  split
  · exact ⟨fits.lo.isOf.fits_add one _, fits.hi⟩
  split
  · exact ⟨fits.lo, fits.hi.isOf.fits_add one.neg _⟩
  · exact fits

theorem strict_target_div {p : Rat} (directed : k ≠ .double) (hi : rest.hi.kind ≠ .double)
    (lo : a.lo.value = .fin p) (up : a.hi.value = .fin p) (pne : p ≠ 0) (inRest : rest.Spans ρ)
    (admits : Comparison.above.Admits none ((fin p).mul (.fin q) + ρ)) :
    (0 < p → ((target k .above rest).div a).lo.value < .fin q) ∧
      (p < 0 → .fin q < ((target k .above rest).div a).hi.value) := by
  have below : .fin (-(p * q)) < ρ := (neg_le_of_admits (.inr rfl) admits).2 rfl
  have strict : rest.hi.value.neg < .fin (p * q) := by
    rw [← not_le, fin_le_neg]
    exact below.trans_le inRest.2
  have least : (target k .above rest).Spans rest.hi.value.neg :=
    ⟨le_refl _, le_posInf _⟩
  have number : a.Spans (.fin p) := ⟨lo.le, up.ge⟩
  have first := Spans.div hi directed least number (mt fin.inj pne)
  constructor
  · intro pos
    exact first.1.trans_lt (not_le.1 (mt (mul_inv_iff pos).2.1 (not_le.2 strict)))
  · intro negative
    exact (not_le.1 (mt (mul_inv_iff_of_neg negative).1.1 (not_le.2 strict))).trans_le first.2

/-! ### Intervals on a dimension -/

theorem fits_fit (fits : i.Fits l) : (fit k isInt i).Fits k := by
  have converted := fits.convert k
  unfold fit canonical
  dsimp only
  split
  · split
    · change (bottom (i.convert k).lo.kind).Fits k
      rw [converted.lo.kind]
      exact fits_bottom k
    · exact ⟨Number.fits_ceil converted.lo.kind, Number.fits_floor converted.hi.kind⟩
  · exact converted

theorem has_fit (outward : k.IsOutward) (fits : i.Fits l) (h : i.Has q)
    (integer : isInt = true → q.den = 1) : (fit k isInt i).Has q := by
  have converted := fits.convert k
  have inside : (i.convert k).Has q := h.convert outward.directed
  unfold fit
  dsimp only
  split
  · rename_i rounds
    have whole := integer (Bool.and_eq_true_iff.1 rounds).1
    apply Spans.canonical
    -- the integers next to the bounds are values of the kind, so that they are not rounded
    constructor
    · rw [Number.value_ceil outward converted.lo]
      exact (ceil_le_fin whole).2 inside.1
    · rw [Number.value_floor outward converted.hi]
      exact (fin_le_floor whole).2 inside.2
  · exact inside

theorem isOf_target (kind : rest.IsOf k) : (target k comparison rest).IsOf k := by
  unfold target
  split
  · exact kind.neg
  · exact isOf_of_bounds kind.isOf_hi.neg (Number.fits_infinity k 1).isOf

section Narrow

variable (ha : a.IsOf k) (hr : rest.IsOf k)
include ha hr

theorem fits_quotient : ((target k comparison rest).div a).Fits k := (isOf_target hr).fits_div ha

private theorem fits_quotients {p : Prop} [Decidable p] {lower : Bool} :
    (fit k isInt (if p then strictInteger ((target k comparison rest).div a) lower
      else (target k comparison rest).div a)).Fits k := by
  apply fits_fit
  split
  · exact fits_strictInteger (fits_quotient ha hr)
  · exact fits_quotient ha hr

theorem has_narrow (outward : k.IsOutward) (inA : a.Spans α) (apart : a.containsZero = false)
    (inRest : rest.Spans ρ)
    (used : comparison = .equal ∨ comparison = .atLeast ∨ comparison = .above)
    (admits : comparison.Admits none (α.mul (.fin q) + ρ)) (inside : current.Has q)
    (integer : isInt = true → q.den = 1) : (narrow k isInt comparison a rest current).Has q := by
  have quotient : ((target k comparison rest).div a).Fits k := fits_quotient ha hr
  have lo := hr.lo_ne outward.directed
  have hi := hr.hi_ne outward.directed
  have member : ((target k comparison rest).div a).Has q :=
    has_target_div outward.directed lo hi inA apart inRest used admits
  apply inside.meet
  split
  · -- only rationals are moved to the next integer
    rename_i strict
    simp only [Bool.and_eq_true, decide_eq_true_eq] at strict
    obtain ⟨⟨⟨int, rfl⟩, rfl⟩, point⟩ := strict
    obtain ⟨p, below, above⟩ := exists_of_isPoint point
    obtain rfl : α = .fin p := le_antisymm (above ▸ inA.2) (below ▸ inA.1)
    have pne : p ≠ 0 := by
      rintro rfl
      exact Bool.eq_false_iff.1 apart (containsZero_iff.2 inA)
    have sign : 0 < a.lo.sign ↔ 0 < p := by
      rw [← not_le, Number.sign, sign_nonpos, below, fin_le_fin, not_le]
    have strict := strict_target_div outward.directed hi below above pne inRest admits
    refine has_fit outward (fits_strictInteger quotient) ?_ integer
    refine has_strictInteger (isOf_rational_iff.1 quotient.isOf) member (integer int)
      (fun lower => ?_) fun upper => ?_
    · exact strict.1 (sign.1 (of_decide_eq_true lower))
    · exact strict.2 (lt_of_le_of_ne (not_lt.1 (sign.not.1 (of_decide_eq_false upper))) pne)
  · exact has_fit outward quotient member integer

end Narrow

/-! ### All dimensions -/

variable {s : Space} {bs bs' : List Interval} {result : Option (List Interval)}
  {keep : List Rat → Prop} {f : LinearForm} {c : LinearConstraint} {cs : List LinearConstraint}

structure Leaves (k : Kind) (s : Space) (bs : List Interval) (result : Option (List Interval))
    (keep : List Rat → Prop) : Prop where
  length : ∀ bs' ∈ result, bs'.length = bs.length
  fits : ∀ bs' ∈ result, ∀ i ∈ bs', i.Fits k
  within : ∀ bs' ∈ result, ∀ x, InBox bs' x → InBox bs x
  keeps : ∀ x, s.IsPoint x → InBox bs x → keep x → ∃ bs' ∈ result, InBox bs' x

theorem Leaves.refl (fits : ∀ i ∈ bs, i.Fits k) : Leaves k s bs (some bs) keep where
  length := by simp
  fits := by simpa using fits
  within := by simp
  keeps x _ inside _ := ⟨bs, rfl, inside⟩

theorem Leaves.none (never : ∀ x, s.IsPoint x → InBox bs x → ¬ keep x) :
    Leaves k s bs none keep where
  length := by simp
  fits := by simp
  within := by simp
  keeps x point inside kept := absurd kept (never x point inside)

theorem Leaves.trans (h : Leaves k s bs (some bs') keep) (h' : Leaves k s bs' result keep) :
    Leaves k s bs result keep where
  length last mem := (h'.length last mem).trans (h.length bs' rfl)
  fits := h'.fits
  within last mem x inside := h.within bs' rfl x (h'.within last mem x inside)
  keeps x point inside kept := by
    obtain ⟨_, ⟨⟩, inside⟩ := h.keeps x point inside kept
    exact h'.keeps x point inside kept

theorem Leaves.mono {more : List Rat → Prop} (h : Leaves k s bs result more)
    (weaker : ∀ x, keep x → more x) : Leaves k s bs result keep where
  length := h.length
  fits := h.fits
  within := h.within
  keeps x point inside kept := h.keeps x point inside (weaker x kept)

theorem leaves_set {d : Nat} (fits : ∀ i ∈ bs, i.Fits k) (inside : d < bs.length)
    (hi : i.Fits k) (within : ∀ q, i.Has q → bs[d].Has q)
    (has : ∀ x, s.IsPoint x → InBox bs x → keep x → i.Has (x.getD d 0)) :
    Leaves k s bs (some (bs.set d i)) keep where
  length := by simp
  fits := by
    rintro _ ⟨⟩ j mem
    rcases mem_or_eq_of_mem_set mem with old | rfl
    · exact fits j old
    · exact hi
  within := by
    rintro _ ⟨⟩ x inBox e j found
    by_cases same : d = e
    · subst same
      rw [getElem?_eq_getElem inside, Option.some.injEq] at found
      rw [← found]
      exact within _ (inBox d i (by simp [inside]))
    · exact inBox e j (by rwa [getElem?_set_ne same])
  keeps x point inBox kept := by
    refine ⟨_, rfl, fun e j found => ?_⟩
    by_cases same : d = e
    · subst same
      rw [getElem?_set_self inside, Option.some.injEq] at found
      rw [← found]
      exact has x point inBox kept
    · rw [getElem?_set_ne same] at found
      exact inBox e j found

def Applied (k : Kind) (s : Space) (bs : List Interval) (c : LinearConstraint) : Prop :=
  ∃ before after, c.form.Below before.length ∧ (∀ i ∈ before, i.Fits k) ∧
    apply k s c before = .ok (some after) ∧ ∀ x, InBox bs x → InBox after x

section

variable (outward : k.IsOutward)
include outward

theorem narrowAll_spec (terms : List (Nat × Coefficient)) (some : ∀ e ∈ terms, e ∈ f.nonzero)
    (valid : f.Valid) (below : f.Below bs.length) (fits : ∀ i ∈ bs, i.Fits k)
    (used : comparison = .equal ∨ comparison = .atLeast ∨ comparison = .above) :
    ∃ result, narrowAll k s comparison f terms bs = .ok result ∧
      Leaves k s bs result fun x => ∃ r, f.Reaches x r ∧ comparison.Admits none r := by
  induction terms generalizing bs with
  | nil => exact ⟨_, rfl, .refl fits⟩
  | cons e terms ih =>
    obtain ⟨d, c⟩ := e
    obtain ⟨first, others⟩ := forall_mem_cons.1 some
    cases zero : (c.toIntervalOf k).containsZero with
    | true =>
      -- nothing follows for this dimension
      rw [narrowAll, if_pos zero]
      exact ih others below fits
    | false =>
      have inside : d < bs.length := below (d, c) first
      have entry := (LinearForm.mem_nonzero.1 first).1
      have coefficient := (valid.coefficients (d, c) entry).isOf_toIntervalOf outward.directed
      obtain ⟨rest, run, restKind, -, spans⟩ := LinearForm.eval_spec outward
        (valid.without) below.without fun i mem => (fits i mem).isOf.toValid
      let left := narrow k (s.isInt d) comparison (c.toIntervalOf k) rest bs[d]
      have step : narrowAll k s comparison f ((d, c) :: terms) bs =
          if left.isEmpty then .ok none else narrowAll k s comparison f terms (bs.set d left) := by
        rw [narrowAll, if_neg (by simp [zero]), run, fetch, getElem?_eq_getElem inside]
        rfl
      have has (x : List Rat) (point : s.IsPoint x) (inBox : InBox bs x)
          (admitted : ∃ r, f.Reaches x r ∧ comparison.Admits none r) :
          left.Has (x.getD d 0) := by
        obtain ⟨r, reaches, admits⟩ := admitted
        obtain ⟨α, ρ, member, value, rfl⟩ := reaches.split valid entry
        exact has_narrow coefficient restKind outward (member.toIntervalOf outward.directed) zero
          (spans x inBox ρ value) used admits (inBox d _ (getElem?_eq_getElem inside))
          (point.integral d)
      rw [step]
      split
      · rename_i empty
        refine ⟨none, rfl, .none fun x point inBox admitted => ?_⟩
        rw [(has x point inBox admitted).not_isEmpty] at empty
        exact Bool.false_ne_true empty
      · have range := fits _ (getElem_mem inside)
        have leaves := leaves_set fits inside
          (range.meet (fits_quotients coefficient restKind)) (fun _ h =>
            ((has_meet outward range (fits_quotients coefficient restKind)).1 h).1) has
        obtain ⟨result, run, later⟩ := ih others (by rwa [length_set]) (leaves.fits _ rfl)
        exact ⟨result, run, leaves.trans later⟩

theorem apply_spec (valid : c.form.Valid) (below : c.form.Below bs.length)
    (fits : ∀ i ∈ bs, i.Fits k) :
    ∃ result, apply k s c bs = .ok result ∧ Leaves k s bs result c.Admits := by
  unfold apply
  cases usable : c.usable? with
  | none => exact ⟨_, rfl, .refl fits⟩
  | some comparison =>
    obtain ⟨full, run, -, -, spans⟩ := LinearForm.eval_spec outward valid below
      fun i mem => (fits i mem).isOf.toValid
    have admitted {x : List Rat} (h : c.Admits x) :
        ∃ r, c.form.Reaches x r ∧ comparison.Admits none r := by
      obtain ⟨r, reaches, admits⟩ := h
      exact ⟨r, reaches, LinearConstraint.admits_of_usable? usable admits⟩
    rw [run]
    change ∃ result, (if comparison.excludes none full = true then .ok none
      else if comparison = .notEqual then .ok (some bs)
      else narrowAll k s comparison c.form c.form.nonzero bs) = .ok result ∧ _
    split
    · rename_i excluded
      refine ⟨none, rfl, .none fun x _ inBox h => ?_⟩
      obtain ⟨r, reaches, admits⟩ := admitted h
      exact Comparison.not_admits_of_excludes excluded (spans x inBox r reaches) admits
    split
    · exact ⟨_, rfl, .refl fits⟩
    · have used : comparison = .equal ∨ comparison = .atLeast ∨ comparison = .above := by
        have plain := LinearConstraint.ne_congruent_of_usable? usable
        cases comparison <;> simp_all
      obtain ⟨result, run, leaves⟩ :=
        narrowAll_spec outward c.form.nonzero (fun _ mem => mem) valid below fits used
      exact ⟨result, run, leaves.mono fun x h => admitted h⟩

theorem round_spec (valid : ∀ c ∈ cs, c.form.Valid ∧ c.form.Below bs.length)
    (fits : ∀ i ∈ bs, i.Fits k) :
    ∃ result, round k s cs bs = .ok result ∧
      (Leaves k s bs result fun x => ∀ c ∈ cs, c.Admits x) ∧
        ∀ bs' ∈ result, ∀ c ∈ cs, Applied k s bs' c := by
  induction cs generalizing bs with
  | nil => exact ⟨_, rfl, .refl fits, by simp⟩
  | cons c cs ih =>
    obtain ⟨first, _⟩ := forall_mem_cons.1 valid
    obtain ⟨result, applied, leaves⟩ := apply_spec (s := s) outward first.1 first.2 fits
    have leaves := leaves.mono fun x (h : ∀ c' ∈ c :: cs, c'.Admits x) => h c (by simp)
    rw [round, applied]
    cases result with
    | none => exact ⟨none, rfl, leaves, by simp⟩
    | some bs' =>
      obtain ⟨result, run, later, rest⟩ :=
        ih (by rwa [leaves.length bs' rfl]) (leaves.fits bs' rfl)
      have later := later.mono fun x (h : ∀ c' ∈ c :: cs, c'.Admits x) c' mem =>
        h c' (by simp [mem])
      -- the later constraints only narrow the ranges
      refine ⟨result, run, leaves.trans later, fun last mem => forall_mem_cons.2 ⟨?_, ?_⟩⟩
      · exact ⟨bs, bs', first.2, fits, applied, later.within last mem⟩
      · exact rest last mem

theorem rounds_spec (n : Nat) (valid : ∀ c ∈ cs, c.form.Valid ∧ c.form.Below bs.length)
    (fits : ∀ i ∈ bs, i.Fits k) :
    ∃ result, rounds k s cs n bs = .ok result ∧
      (Leaves k s bs result fun x => ∀ c ∈ cs, c.Admits x) ∧
        (0 < n → ∀ bs' ∈ result, ∀ c ∈ cs, Applied k s bs' c) := by
  induction n generalizing bs with
  | zero => exact ⟨_, rfl, .refl fits, fun none => absurd none (lt_irrefl 0)⟩
  | succ n ih =>
    obtain ⟨result, run, leaves, applied⟩ := round_spec outward valid fits
    rw [rounds, run]
    cases result with
    | none => exact ⟨none, rfl, leaves, fun _ => applied⟩
    | some bs' =>
      by_cases same : bs' = bs
      · exact ⟨some bs, if_pos same, .refl fits, fun _ => same ▸ applied⟩
      · obtain ⟨result, run, later, -⟩ := ih (by rwa [leaves.length bs' rfl]) (leaves.fits bs' rfl)
        refine ⟨result, ?_, leaves.trans later, fun _ last mem c inside => ?_⟩
        · rw [← run]
          exact if_neg same
        · obtain ⟨before, after, below, fits, ran, within⟩ := applied bs' rfl c inside
          exact ⟨before, after, below, fits, ran, fun x h => within x (later.within last mem x h)⟩

theorem ensures_propagate {request : Request} {risk : Prop} {v : Box} (hv : v.Fits k)
    (valid : ∀ c ∈ cs, c.form.Valid ∧ c.form.Below v.space.size) :
    Op.Ensures request risk (propagate k v cs) fun w =>
      w.Fits k ∧ w.space = v.space ∧
        (∀ x, v.HasPoint x → (∀ c ∈ cs, c.Admits x) → w.HasPoint x) ∧
        ∀ x, w.HasPoint x → v.HasPoint x := by
  cases v with
  | empty s => exact Op.ensures_pure ⟨hv, rfl, fun x inside => inside.elim, fun x => id⟩
  | ranges s bs =>
    obtain ⟨size, -⟩ := hv.formed
    rw [propagate]
    apply Op.Ensures.markInexactIf
    apply Op.Ensures.readBind
    obtain ⟨result, run, leaves, -⟩ :=
      rounds_spec outward (roundLimit request.options) (size.symm ▸ valid) hv.bounds
    apply Op.Ensures.ofExceptBind run
    cases result with
    | none =>
      refine Op.ensures_pure ⟨fits_empty s, rfl, ?_, fun x inside => inside.elim⟩
      intro x inside admits
      obtain ⟨_, ⟨⟩, -⟩ := leaves.keeps x inside.1 inside.2 admits
    | some bs' =>
      have length : bs'.length = s.size := (leaves.length bs' rfl).trans size
      apply (ensures_make length (leaves.fits bs' rfl)).mono
      intro w ⟨hw, space, points⟩
      refine ⟨hw, space, ?_, ?_⟩
      · intro x inside admits
        obtain ⟨_, ⟨⟩, inBox⟩ := leaves.keeps x inside.1 inside.2 admits
        exact (points x).2 ⟨inside.1, inBox⟩
      · intro x inside
        obtain ⟨point, inBox⟩ := (points x).1 inside
        exact ⟨point, leaves.within bs' rfl x inBox⟩

end

end Box

end Enclosure
