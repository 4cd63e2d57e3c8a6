import Enclosure.Proofs.AffineForms
import Enclosure.Proofs.IntegerRounding
import Enclosure.Proofs.RoundedIntervals

/-!
# Values of terms

The values of a term at a point are real numbers: a constant has every real number that its interval
encloses, and an operator node has the rounded results of its operator on values of the operands.
-/

namespace Enclosure

open Interval Option Affine

/-! ### Real values -/

def ResultFormat.Gives (format : ResultFormat) (policy : RoundingPolicy) (exact r : ℝ) : Prop :=
  match format with
  | .real => r = exact
  | .integer => ∃ n : ℤ, policy.Rounds exact n ∧ r = n
  | _ => False

def UnaryOperator.Gives (op : UnaryOperator) (s r : ℝ) : Prop :=
  match op with
  | .neg => r = -s
  | .cast => r = s
  | .sqrt => 0 ≤ s ∧ r = √s

def BinaryOperator.Gives (op : BinaryOperator) (s t r : ℝ) : Prop :=
  match op with
  | .add => r = s + t
  | .sub => r = s - t
  | .mul => r = s * t
  | .div => t ≠ 0 ∧ r = s / t
  | .mod => t ≠ 0 ∧ r = remainder s t
  | .pow => r = s ^ t

namespace Term

variable {t : Term} {x : List Rat} {r : ℝ}

/-- The real values of a term at a point, with the rounding that each operator asks for. -/
def Takes (x : List Rat) : Term → ℝ → Prop
  | const c, r => c.toInterval.Encloses r
  | dim d, r => r = (x.getD d 0 : Rat)
  | unary op format policy t, r =>
    ∃ s exact, t.Takes x s ∧ op.Gives s exact ∧ format.Gives policy exact r
  | binary op format policy t u, r =>
    ∃ s s' exact, t.Takes x s ∧ u.Takes x s' ∧ op.Gives s s' exact ∧ format.Gives policy exact r

def Valid : Term → Prop
  | const c => c.toInterval.Valid ∧ c.kind ≠ .binary 0
  | dim _ => True
  | unary _ _ _ t => t.Valid
  | binary _ _ _ t u => t.Valid ∧ u.Valid

def AllConstants (P : Coefficient → Prop) : Term → Prop
  | const c => P c
  | dim _ => True
  | unary _ _ _ t => t.AllConstants P
  | binary _ _ _ t u => t.AllConstants P ∧ u.AllConstants P

theorem AllConstants.mono {P Q : Coefficient → Prop} (h : t.AllConstants P)
    (imp : ∀ c, P c → Q c) : t.AllConstants Q := by
  induction t with
  | const c => exact imp c h
  | dim d => trivial
  | unary op format policy t ih => exact ih h
  | binary op format policy t u ih ih' => exact ⟨ih h.1, ih' h.2⟩

theorem valid_iff : t.Valid ↔ t.AllConstants fun c => c.toInterval.Valid ∧ c.kind ≠ .binary 0 := by
  induction t with
  | const c => rfl
  | dim d => rfl
  | unary op format policy t ih => exact ih
  | binary op format policy t u ih ih' => exact and_congr ih ih'

theorem Valid.bits (valid : t.Valid) : t.AllConstants fun c => c.kind ≠ .binary 0 :=
  (valid_iff.1 valid).mono fun _ h => h.2

theorem takes_exact (k : Kind) (q : Rat) : (const (.exact ⟨k, .fin q⟩)).Takes x q :=
  encloses_ratCast.2 ⟨le_refl _, le_refl _⟩

theorem Takes.add {u : Term} {s : ℝ} (ht : t.Takes x r) (hu : u.Takes x s) :
    (t.add u).Takes x (r + s) :=
  ⟨r, s, r + s, ht, hu, rfl, rfl⟩

theorem Takes.mul {u : Term} {s : ℝ} (ht : t.Takes x r) (hu : u.Takes x s) :
    (t.mul u).Takes x (r * s) :=
  ⟨r, s, r * s, ht, hu, rfl, rfl⟩

end Term

/-! ### Evaluation over a box -/

namespace Interval

variable {i j : Interval} {k : Kind} {r s exact : ℝ} {op : BinaryOperator}

theorem Fits.self (h : i.Fits k) : i.Fits i.kind := by
  obtain rfl : i.kind = k := h.lo.kind
  exact h

theorem Encloses.round {format : ResultFormat} {policy : RoundingPolicy} (outward : k.IsOutward)
    (fits : i.Fits k) (h : i.Encloses exact) (gives : format.Gives policy exact r) :
    (i.round format policy).Encloses r := by
  cases format with
  | real =>
    obtain rfl : r = exact := gives
    exact h
  | integer =>
    obtain ⟨n, rounds, rfl⟩ := gives
    exact h.roundInteger outward fits rounds
  | _ => exact gives.elim

theorem Encloses.unary {op : UnaryOperator} (directed : k ≠ .double) (kind : i.IsOf k)
    (h : i.Encloses s) (gives : op.Gives s r) : (op.apply i).Encloses r := by
  cases op with
  | neg =>
    obtain rfl : r = -s := gives
    exact h.neg
  | cast =>
    obtain rfl : r = s := gives
    exact h
  | sqrt =>
    obtain ⟨nonneg, rfl⟩ := gives
    exact h.sqrt (kind.lo_ne directed) (kind.hi_ne directed) nonneg

theorem Encloses.binary {t : ℝ} (outward : k.IsOutward) (hi : i.IsOf k) (hs : i.Encloses s)
    (ht : j.Encloses t) (gives : op.Gives s t r) : (op.apply i j).Encloses r := by
  have lo := hi.lo_ne outward.directed
  have high := hi.hi_ne outward.directed
  cases op with
  | add =>
    obtain rfl : r = s + t := gives
    exact hs.add lo high ht
  | sub =>
    obtain rfl : r = s - t := gives
    exact hs.add lo high ht.neg
  | mul =>
    obtain rfl : r = s * t := gives
    exact hs.mul lo high ht
  | div =>
    obtain ⟨nonzero, rfl⟩ := gives
    exact hs.div lo high ht nonzero
  | mod =>
    obtain ⟨nonzero, rfl⟩ := gives
    exact hs.modulo ht nonzero
  | pow =>
    obtain rfl : r = s ^ t := gives
    exact hs.pow (hi.kind ▸ outward) (hi.hiKind ▸ outward) ht

end Interval

namespace Coefficient

variable {c : Coefficient} {r : ℝ}

theorem fitsIn_rational (valid : c.toInterval.Valid) : c.FitsIn .rational := by
  apply Valid.fitsIn_rational
  cases c with
  | exact x => trivial
  | range i => exact valid

end Coefficient

namespace Term

variable {t : Term} {bounds : List Interval} {x : List Rat} {k : Kind} {r : ℝ} {a : Affine}

theorem Valid.allFitIn_rational (valid : t.Valid) : t.AllConstants (Coefficient.FitsIn .rational) :=
  (valid_iff.1 valid).mono fun _ h => Coefficient.fitsIn_rational h.1

theorem eval_spec (outward : k.IsOutward) (t : Term)
    (constants : t.AllConstants (Coefficient.FitsIn k))
    (inside : ∀ d, t.hasDim d = true → d < bounds.length) (ranges : ∀ i ∈ bounds, i.Fits i.kind) :
    ∃ i, t.eval bounds k = .ok i ∧ i.Fits k ∧
      ∀ x, InBox bounds x → ∀ r, t.Takes x r → i.Encloses r := by
  have directed := outward.directed
  have closed := Number.closed_fits directed
  induction t with
  | const c =>
    exact ⟨_, Coefficient.checkedIntervalOf_eq outward, constants,
      fun x _ r takes => .mono takes fun _ => Coefficient.Spans.toIntervalOf directed⟩
  | dim d =>
    have within : d < bounds.length := inside d (by simp [hasDim])
    refine ⟨_, LinearForm.boundAt_eq outward within,
      (ranges _ (List.getElem_mem within)).convert k, ?_⟩
    intro x box r takes
    obtain rfl : r = (x.getD d 0) := takes
    exact encloses_ratCast.2 ((box d _ (List.getElem?_eq_getElem within)).convert directed)
  | unary op format policy t ih =>
    obtain ⟨i, run, fits, values⟩ := ih constants inside
    have result := (fits.both closed.toRounded).unary closed op
    refine ⟨(op.apply i).round format policy, ?_, (result.round closed format policy).fits, ?_⟩
    · rw [eval, run]
      rfl
    · intro x box r takes
      obtain ⟨s, exact, takes, gives, rounds⟩ := takes
      exact ((values x box s takes).unary directed fits.isOf gives).round outward result.fits rounds
  | binary op format policy t u ih ih' =>
    obtain ⟨i, run, fits, values⟩ := ih constants.1 fun d h => inside d (by simp [hasDim, h])
    obtain ⟨j, run', fits', values'⟩ := ih' constants.2 fun d h => inside d (by simp [hasDim, h])
    have result := (fits.both closed.toRounded).binary closed op (fits'.both closed.toRounded)
    refine ⟨(op.apply i j).round format policy, ?_, (result.round closed format policy).fits, ?_⟩
    · rw [eval, run, run']
      rfl
    · intro x box r takes
      obtain ⟨s, s', exact, takes, takes', gives, rounds⟩ := takes
      exact ((values x box s takes).binary outward fits.isOf (values' x box s' takes') gives).round
        outward result.fits rounds

theorem lt_support {d : Nat} (occurs : t.hasDim d = true) : d < t.support := by
  induction t with
  | const c => cases occurs
  | dim e =>
    obtain rfl : e = d := of_decide_eq_true occurs
    exact Nat.lt_succ_self e
  | unary _ _ _ _ ih => exact ih occurs
  | binary _ _ _ _ _ ih ih' =>
    rcases Bool.or_eq_true_iff.1 occurs with left | right
    · exact (ih left).trans_le (Nat.le_max_left _ _)
    · exact (ih' right).trans_le (Nat.le_max_right _ _)

theorem Takes.congr {y : List Rat} (h : t.Takes x r)
    (same : ∀ d, t.hasDim d = true → x.getD d 0 = y.getD d 0) : t.Takes y r := by
  induction t generalizing r with
  | const c => exact h
  | dim d =>
    obtain rfl : r = (x.getD d 0) := h
    exact congrArg _ (same d (by simp [hasDim]))
  | unary op format policy t ih =>
    obtain ⟨s, exact, takes, rest⟩ := h
    exact ⟨s, exact, ih takes same, rest⟩
  | binary op format policy t u ih ih' =>
    obtain ⟨s, s', exact, takes, takes', rest⟩ := h
    exact ⟨s, s', exact, ih takes fun d h => same d (by simp [hasDim, h]),
      ih' takes' fun d h => same d (by simp [hasDim, h]), rest⟩

/-! ### Linearization -/

variable {P : Nat → Prop}

/-- An affine form on some dimensions includes the values of a term at the points within bounds. -/
private structure Includes (t : Term) (k : Kind) (P : Nat → Prop) (bounds : List Interval)
    (a : Affine) : Prop where
  formed : a.IsFormed k P
  values : ∀ x, InBox bounds x → ∀ r, t.Takes x r → Brackets {v | a.Takes x v} r

section

variable (outward : k.IsOutward)
include outward

private theorem includes_eval (constants : t.AllConstants (Coefficient.FitsIn k))
    (inside : ∀ d, t.hasDim d = true → d < bounds.length) (ranges : ∀ i ∈ bounds, i.Fits i.kind) :
    ∃ a, ofInterval <$> t.eval bounds k = .ok a ∧ t.Includes k P bounds a := by
  obtain ⟨i, run, fits, values⟩ := eval_spec outward t constants inside ranges
  refine ⟨.ofInterval i, by rw [run]; rfl, isFormed_ofInterval fits.isOf, ?_⟩
  intro x box r takes
  exact .mono (values x box r takes) fun _ => takes_ofInterval.2

private theorem affineProduct_spec {a b : Affine} (ha : a.IsFormed k P) (hb : b.IsFormed k P)
    (inside : ∀ d, P d → d < bounds.length) (ranges : ∀ i ∈ bounds, i.Valid) :
    ∃ c, affineProduct bounds k a b = .ok c ∧ c.IsFormed k P ∧
      ∀ x, InBox bounds x → ∀ u v, a.Takes x u → b.Takes x v → c.Takes x (u * v) := by
  have directed := outward.directed
  unfold affineProduct
  split
  · rename_i constant
    refine ⟨_, rfl, hb.scale ha.constant, fun x _ u v hu hv => ?_⟩
    rw [mul_comm]
    exact hv.scale directed hb (hu.has_of_isConstant constant)
  split
  · rename_i constant
    refine ⟨_, rfl, ha.scale hb.constant, fun x _ u v hu hv => ?_⟩
    exact hu.scale directed ha (hv.has_of_isConstant constant)
  · obtain ⟨i, run, kind, values⟩ := Affine.eval_spec outward hb inside ranges
    refine ⟨a.scale i, by rw [run]; rfl, ha.scale kind, fun x box u v hu hv => ?_⟩
    exact hu.scale directed ha (values x box v hv)

private theorem affine_spec (constants : t.AllConstants (Coefficient.FitsIn k))
    (dims : ∀ d, t.hasDim d = true → P d) (inside : ∀ d, P d → d < bounds.length)
    (ranges : ∀ i ∈ bounds, i.Fits i.kind) :
    ∃ a, t.affine bounds k = .ok a ∧ t.Includes k P bounds a := by
  have directed := outward.directed
  fun_induction Term.affine bounds k t with
  | case1 c => exact includes_eval outward constants (fun d h => inside d (dims d h)) ranges
  | case2 d =>
    refine ⟨_, by rw [outward.require_eq]; rfl,
      isFormed_ofDimension k (dims d (by simp [hasDim])), fun x _ r takes => ?_⟩
    obtain rfl : r = (x.getD d 0) := takes
    exact .of_mem (takes_ofDimension outward)
  | case3 p t ih =>
    obtain ⟨a, run, formed, values⟩ := ih constants dims
    refine ⟨a.neg, by rw [run]; rfl, formed.neg, fun x box r takes => ?_⟩
    obtain ⟨s, _, takes, rfl, rfl⟩ := takes
    exact (values x box s takes).neg fun v hv => hv.neg formed
  | case4 p t ih =>
    obtain ⟨a, run, formed, values⟩ := ih constants dims
    refine ⟨a, run, formed, fun x box r takes => ?_⟩
    obtain ⟨s, _, takes, rfl, rfl⟩ := takes
    exact values x box _ takes
  | case5 p s t ih ih' =>
    obtain ⟨a, run, formed, values⟩ := ih constants.1 fun d h => dims d (by simp [hasDim, h])
    obtain ⟨b, run', formed', values'⟩ := ih' constants.2 fun d h => dims d (by simp [hasDim, h])
    refine ⟨a.add b, by rw [run, run']; rfl, formed.add formed', fun x box r takes => ?_⟩
    obtain ⟨w, w', _, takes, takes', rfl, rfl⟩ := takes
    exact (values x box w takes).add (values' x box w' takes') fun u hu v hv =>
      hu.add directed formed formed' hv
  | case6 p s t ih ih' =>
    obtain ⟨a, run, formed, values⟩ := ih constants.1 fun d h => dims d (by simp [hasDim, h])
    obtain ⟨b, run', formed', values'⟩ := ih' constants.2 fun d h => dims d (by simp [hasDim, h])
    refine ⟨a.sub b, by rw [run, run']; rfl, formed.add formed'.neg, fun x box r takes => ?_⟩
    obtain ⟨w, w', _, takes, takes', rfl, rfl⟩ := takes
    exact (values x box w takes).add ((values' x box w' takes').neg fun v hv => hv.neg formed')
      fun u hu v hv => hu.add directed formed formed'.neg hv
  | case7 p s t ih ih' =>
    obtain ⟨a, run, formed, values⟩ := ih constants.1 fun d h => dims d (by simp [hasDim, h])
    obtain ⟨b, run', formed', values'⟩ := ih' constants.2 fun d h => dims d (by simp [hasDim, h])
    obtain ⟨c, product, formedProduct, products⟩ := affineProduct_spec outward formed formed'
      inside fun i mem => (ranges i mem).isOf.toValid
    refine ⟨c, by rw [run, run']; exact product, formedProduct, fun x box r takes => ?_⟩
    obtain ⟨w, w', _, takes, takes', rfl, rfl⟩ := takes
    exact (values x box w takes).mul (values' x box w' takes') fun u hu v hv =>
      products x box u v hu hv
  | case8 p s t ih =>
    obtain ⟨i, run, fits, values⟩ := eval_spec outward t constants.2
      (fun d h => inside d (dims d (by simp [hasDim, h]))) ranges
    rw [run]
    change ∃ a, (if (i.isEmpty || i.containsZero) = true then _ else _) = _ ∧ _
    split
    · exact includes_eval outward constants (fun d h => inside d (dims d h)) ranges
    · obtain ⟨a, run, formed, values'⟩ := ih constants.1 fun d h => dims d (by simp [hasDim, h])
      refine ⟨_, by rw [run]; rfl, formed.scale ((isOf_one k).div fits.isOf),
        fun x box r takes => ?_⟩
      obtain ⟨w, w', _, takes, takes', ⟨nonzero, rfl⟩, rfl⟩ := takes
      exact (values' x box w takes).mul
        ((values x box w' takes').inv outward nonzero) fun u hu v hv =>
          hu.scale directed formed hv
  | case9 => exact includes_eval outward constants (fun d h => inside d (dims d h)) ranges

theorem linearize_spec (constants : t.AllConstants (Coefficient.FitsIn k))
    (inside : ∀ d, t.hasDim d = true → d < bounds.length) (ranges : ∀ i ∈ bounds, i.Fits i.kind) :
    ∃ f, t.linearize bounds k = .ok f ∧ f.Valid ∧ f.Below bounds.length ∧
      (∀ e ∈ f.entries, e.2.rational? ≠ none) ∧
      ∀ z, InBox bounds z → ∀ x, (∀ d, t.hasDim d = true → ∀ i, bounds[d]? = some i →
        i.Has (x.getD d 0)) → ∀ r, t.Takes x r → Brackets {v | f.Takes x v} r := by
  obtain ⟨a, run, formed, values⟩ := affine_spec outward constants (fun _ h => h) inside ranges
  have dims := dims_toLinearForm formed
  obtain ⟨f, run', validForm, -, belowForm, sameDims, finite, reached⟩ :=
    LinearForm.quasilinearize_spec outward (valid_toLinearForm formed)
      (fun e mem => inside e.1 (dims e (LinearForm.mem_nonzero.1 mem).1))
      fun i mem => (ranges i mem).isOf.toValid
  have numbers := finite (List.forall_mem_map.2 fun _ _ => Coefficient.rational?_reduce_range)
  refine ⟨f, by rw [linearize, run]; exact run', validForm, belowForm, numbers, ?_⟩
  intro z inBox x near r takes
  -- the dimensions that do not occur may be read at a point within the bounds
  let y := (List.range bounds.length).map fun d =>
    if t.hasDim d then x.getD d 0 else z.getD d 0
  have entry (d : Nat) (within : d < bounds.length) :
      y.getD d 0 = if t.hasDim d then x.getD d 0 else z.getD d 0 := by
    simp [y, within]
  have same (d : Nat) (occurs : t.hasDim d = true) : y.getD d 0 = x.getD d 0 := by
    rw [entry d (inside d occurs), if_pos occurs]
  have inBox' : InBox bounds y := by
    intro d i found
    rw [entry d (lt_of_getElem? found)]
    split
    · rename_i occurs
      exact near d occurs i found
    · exact inBox d i found
  apply (values y inBox' r (takes.congr fun d occurs => (same d occurs).symm)).mono
  intro v hv
  obtain ⟨k, hk, sum⟩ := (reached y inBox' _ (takes_toLinearForm.2 hv).reaches).takes numbers
  refine ⟨k, hk, sum.congr fun e mem _ => same e.1 ?_⟩
  have inDims : e.1 ∈ a.toLinearForm.entries.map Prod.fst :=
    sameDims ▸ List.mem_map_of_mem mem
  obtain ⟨e', mem', eq⟩ := List.mem_map.1 inDims
  exact eq ▸ dims e' mem'

end

/-! ### Terms that are exactly affine -/

/-- Whether the doubles to which combined constants are rounded include the exact results. -/
def roundsOutward : Term → Bool
  | const _ => true
  | dim _ => true
  | unary _ _ _ t => t.roundsOutward
  | binary op format policy s t =>
    s.roundsOutward && t.roundsOutward &&
      match s.exactAffine?, t.exactAffine?, (binary op format policy s t).exactAffine? with
      | some a, some b, some c =>
        c.constant.kind ≠ .double ||
          (op.apply (a.constant.convert .rational) (b.constant.convert .rational)).leq c.constant
      | _, _, _ => true

section Combination

variable {op : BinaryOperator} {a b c : Affine} {k : Kind}

theorem combine?_cases (h : combine? op a b = some c) :
    op = .add ∧ c = a.add b ∨ op = .sub ∧ c = a.sub b ∨
      op = .mul ∧ a.isConstant = true ∧ c = b.scale a.constant ∨
      op = .mul ∧ b.isConstant = true ∧ c = a.scale b.constant ∨
      op = .div ∧ b.isConstant = true ∧ b.constant.containsZero = false ∧
        c = a.scale ((point (.one b.constant.kind)).div b.constant) := by
  cases op <;> grind [combine?]

theorem isFormed_combine? (ha : a.IsFormed k P) (hb : b.IsFormed k P)
    (h : combine? op a b = some c) : c.IsFormed k P := by
  obtain ⟨-, rfl⟩ | ⟨-, rfl⟩ | ⟨-, -, rfl⟩ | ⟨-, -, rfl⟩ | ⟨-, -, -, rfl⟩ := combine?_cases h
  · exact ha.add hb
  · exact ha.add hb.neg
  · exact hb.scale ha.constant
  · exact ha.scale hb.constant
  · rw [kind, hb.constant.kind]
    exact ha.scale ((isOf_one k).div hb.constant)

private theorem terms_combine? (ha : a.terms = []) (hb : b.terms = [])
    (h : combine? op a b = some c) : c.terms = [] := by
  obtain ⟨-, rfl⟩ | ⟨-, rfl⟩ | ⟨-, -, rfl⟩ | ⟨-, -, rfl⟩ | ⟨-, -, -, rfl⟩ := combine?_cases h <;>
    simp [Affine.add, Affine.sub, Affine.neg, Affine.scale, Affine.map, ha, hb]

private theorem brackets_combine? {s t r : ℝ} (outward : k.IsOutward)
    (ha : a.IsFormed k P) (hb : b.IsFormed k P) (h : combine? op a b = some c)
    (hs : Brackets {v | a.Takes x v} s) (ht : Brackets {v | b.Takes x v} t)
    (gives : op.Gives s t r) : Brackets {v | c.Takes x v} r := by
  have directed := outward.directed
  obtain ⟨rfl, rfl⟩ | ⟨rfl, rfl⟩ | ⟨rfl, constant, rfl⟩ | ⟨rfl, constant, rfl⟩ |
    ⟨rfl, constant, -, rfl⟩ := combine?_cases h
  · obtain rfl : r = s + t := gives
    exact hs.add ht fun u hu v hv => hu.add directed ha hb hv
  · obtain rfl : r = s - t := gives
    exact hs.add (ht.neg fun v hv => hv.neg hb) fun u hu v hv => hu.add directed ha hb.neg hv
  · obtain rfl : r = s * t := gives
    rw [mul_comm]
    exact ht.mul hs fun v hv u hu => hv.scale directed hb (hu.has_of_isConstant constant)
  · obtain rfl : r = s * t := gives
    exact hs.mul ht fun u hu v hv => hu.scale directed ha (hv.has_of_isConstant constant)
  · obtain ⟨nonzero, rfl⟩ : t ≠ 0 ∧ r = s / t := gives
    have kind : b.constant.kind = k := hb.constant.kind
    have divisor : b.constant.Encloses t := ht.mono fun v hv => hv.has_of_isConstant constant
    rw [kind]
    exact hs.mul (divisor.inv outward nonzero) fun u hu v hv => hu.scale directed ha hv

private theorem encloses_constant (none : a.terms = []) :
    Brackets {v | a.Takes x v} r ↔ a.constant.Encloses r := by
  obtain ⟨i, ts⟩ := a
  obtain rfl : ts = [] := none
  have same : {v | Affine.Takes ⟨i, []⟩ x v} = {v | i.Has v} :=
    Set.ext fun _ => takes_ofInterval
  rw [same]
  exact .rfl

end Combination

private theorem exists_unify {Q : Kind → Prop} {b : Affine} (rational : Q .rational)
    (ha : ∃ k, Q k ∧ a.IsFormed k P ∧ (k ≠ .rational → a.terms = []))
    (hb : ∃ k, Q k ∧ b.IsFormed k P ∧ (k ≠ .rational → b.terms = [])) :
    ∃ k, Q k ∧ a.unify b = (a.map (·.convert k), b.map (·.convert k)) ∧
      (k ≠ .rational → a.terms = [] ∧ b.terms = []) := by
  obtain ⟨k, kind, formed, terms⟩ := ha
  obtain ⟨l, -, formed', terms'⟩ := hb
  have common : commonKind a.constant.kind b.constant.kind =
      if l = .rational then .rational else k := by
    rw [commonKind, Interval.kind, Interval.kind, formed.constant.kind, formed'.constant.kind]
  refine ⟨_, ?_, rfl, fun other => ?_⟩
  · rw [common]
    split
    · exact rational
    · exact kind
  · rw [common] at other
    split at other
    · exact absurd rfl other
    · rename_i other'
      exact ⟨terms other, terms' other'⟩

theorem isFormed_exactAffine? {Q : Kind → Prop} (rational : Q .rational)
    (valid : t.Valid) (kinds : t.AllConstants fun c => Q c.kind)
    (dims : ∀ d, t.hasDim d = true → P d) (h : t.exactAffine? = some a) :
    ∃ k, Q k ∧ a.IsFormed k P ∧ (k ≠ .rational → a.terms = []) := by
  fun_induction exactAffine? t generalizing a with
  | case1 c =>
    obtain rfl := some.inj h
    have kind : c.toInterval.lo.kind = c.kind := by cases c <;> rfl
    exact ⟨c.kind, kinds, isFormed_ofInterval ⟨valid.1, kind⟩, fun _ => rfl⟩
  | case2 d =>
    obtain rfl := some.inj h
    exact ⟨.rational, rational, isFormed_ofDimension .rational (dims d (by simp [hasDim])), by simp⟩
  | case3 p t ih =>
    obtain ⟨b, found, rfl⟩ := map_eq_some_iff.1 h
    obtain ⟨k, kind, formed, terms⟩ := ih valid kinds dims found
    exact ⟨k, kind, formed.neg, fun other => by simp [Affine.neg, Affine.map, terms other]⟩
  | case4 p t ih => exact ih valid kinds dims h
  | case5 => cases h
  | case6 op p s t ih ih' =>
    obtain ⟨b, left, h⟩ := bind_eq_some_iff.1 h
    obtain ⟨c, right, h⟩ := bind_eq_some_iff.1 h
    have hb := ih valid.1 kinds.1 (fun d h => dims d (by simp [hasDim, h])) left
    have hc := ih' valid.2 kinds.2 (fun d h => dims d (by simp [hasDim, h])) right
    obtain ⟨m, kind, unified, terms⟩ := exists_unify rational hb hc
    obtain ⟨_, -, formed, -⟩ := hb
    obtain ⟨_, -, formed', -⟩ := hc
    rw [unified] at h
    refine ⟨m, kind, isFormed_combine? (formed.convert m) (formed'.convert m) h, fun other => ?_⟩
    obtain ⟨none, none'⟩ := terms other
    exact terms_combine? (by simp [map, none]) (by simp [map, none']) h
  | case7 => cases h

private theorem formed_exactAffine? (valid : t.Valid) (h : t.exactAffine? = some a) :
    ∃ k, k ≠ .binary 0 ∧ a.IsFormed k (fun _ => True) ∧ (k ≠ .rational → a.terms = []) :=
  isFormed_exactAffine? (by simp) valid valid.bits (by simp) h

private theorem brackets_exactAffine? (valid : t.Valid) (outward : t.roundsOutward = true)
    (h : t.exactAffine? = some a) (takes : t.Takes x r) : Brackets {v | a.Takes x v} r := by
  fun_induction exactAffine? t generalizing a r with
  | case1 c =>
    obtain rfl := some.inj h
    exact .mono takes fun _ => takes_ofInterval.2
  | case2 d =>
    obtain rfl := some.inj h
    obtain rfl : r = (x.getD d 0) := takes
    exact .of_mem (takes_ofDimension Kind.isOutward_rational)
  | case3 p t ih =>
    obtain ⟨b, found, rfl⟩ := map_eq_some_iff.1 h
    obtain ⟨s, _, takes, rfl, rfl⟩ := takes
    obtain ⟨_, -, formed, -⟩ := formed_exactAffine? (t := t) valid found
    exact (ih valid outward found takes).neg fun v hv => hv.neg formed
  | case4 p t ih =>
    obtain ⟨s, _, takes, rfl, rfl⟩ := takes
    exact ih valid outward h takes
  | case5 => cases h
  | case6 op p s t ih ih' =>
    have whole : (binary op .real p s t).exactAffine? = some a := h
    obtain ⟨b, left, h⟩ := bind_eq_some_iff.1 h
    obtain ⟨c, right, h⟩ := bind_eq_some_iff.1 h
    obtain ⟨⟨outwardLeft, outwardRight⟩, node⟩ :
        (s.roundsOutward = true ∧ t.roundsOutward = true) ∧
          (a.constant.kind ≠ .double ∨ (op.apply (b.constant.convert .rational)
            (c.constant.convert .rational)).leq a.constant = true) := by
      simpa [roundsOutward, left, right, whole] using outward
    obtain ⟨w, _, _, takes, takes', gives, rfl⟩ := takes
    have inLeft := ih valid.1 outwardLeft left takes
    have inRight := ih' valid.2 outwardRight right takes'
    have hb := formed_exactAffine? valid.1 left
    have hc := formed_exactAffine? valid.2 right
    obtain ⟨m, bits, unified, terms⟩ := exists_unify (by simp) hb hc
    obtain ⟨_, -, formed, -⟩ := hb
    obtain ⟨_, -, formed', -⟩ := hc
    rw [unified] at h
    by_cases double : m = .double
    · -- doubles are constants, and the exact result is included as the node says
      obtain ⟨none, none'⟩ := terms (by simp [double])
      have formedResult := isFormed_combine? (formed.convert m) (formed'.convert m) h
      have included := node.resolve_left (not_not.2 (formedResult.constant.kind.trans double))
      rw [encloses_constant none] at inLeft
      rw [encloses_constant none'] at inRight
      have result := Encloses.binary Kind.isOutward_rational
        (formed.constant.isOf_convert .rational)
        (inLeft.mono fun _ => has_convert_rational.2)
        (inRight.mono fun _ => has_convert_rational.2) gives
      rw [encloses_constant (terms_combine? (by simp [map, none]) (by simp [map, none']) h)]
      exact result.mono fun _ has => has.of_leq included
    · exact brackets_combine? (Kind.isOutward_of_ne double bits) (formed.convert m)
        (formed'.convert m) h (inLeft.mono fun v hv => hv.convert double formed)
        (inRight.mono fun v hv => hv.convert double formed') gives
  | case7 => cases h

theorem toLinear?_spec {f : LinearForm} {n : Nat} (valid : t.Valid)
    (inside : ∀ d, t.hasDim d = true → d < n) (outward : t.roundsOutward = true)
    (h : t.toLinear? = some f) :
    f.Valid ∧ f.Below n ∧ ∀ x r, t.Takes x r → Brackets {v | f.Takes x v} r := by
  obtain ⟨a, found, rfl⟩ := map_eq_some_iff.1 h
  obtain ⟨_, -, formed, -⟩ := isFormed_exactAffine? (Q := (· ≠ .binary 0)) (by simp) valid
    valid.bits inside found
  refine ⟨valid_toLinearForm formed, ?_, fun x r takes => ?_⟩
  · intro e mem
    exact dims_toLinearForm formed e (LinearForm.mem_nonzero.1 mem).1
  · exact (brackets_exactAffine? valid outward found takes).mono fun _ => takes_toLinearForm.2

end Term

end Enclosure
