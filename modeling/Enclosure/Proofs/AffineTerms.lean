import Enclosure.Proofs.Exports
import Enclosure.Proofs.PointIntervals
import Enclosure.Proofs.Terms
import Mathlib.Analysis.Convex.Segment

/-!
# Terms that are exactly affine

A term is turned into a linear form without looking at ranges of dimensions.
-/

namespace Enclosure

open List Affine

/-! ### Single rationals -/

namespace Interval

variable {p q : Rat}

def single (q : Rat) : Interval := .point (.rational (.fin q))

theorem isEmpty_single (q : Rat) : (single q).isEmpty = false :=
  decide_eq_false (lt_irrefl (ExtRat.fin q))

theorem add_single (p q : Rat) : (single p).add (single q) = single (p + q) := by
  rw [Interval.add, isEmpty_single, isEmpty_single]
  rfl

theorem mul_single (p q : Rat) : (single p).mul (single q) = single (p * q) := by
  rw [Interval.mul, isEmpty_single, isEmpty_single]
  have product (r : Rounding) : Number.mul r (.rational (.fin p)) (.rational (.fin q)) =
      .rational (.fin (p * q)) := rfl
  simp [single, point, product, least, greatest, Number.min, Number.max]

theorem inv_single (nonzero : q ≠ 0) : (single 1).div (single q) = single q⁻¹ := by
  have only : (single q).IsAt q := ⟨rfl, rfl⟩
  have notZero : (single q).isZero = false := by
    have : (ExtRat.fin q).isZero = false := by simp [Bool.eq_false_iff, ExtRat.isZero_iff, nonzero]
    rw [isZero, single, point, Number.isZero, Number.rational, this]
    rfl
  have quotient (r : Rounding) : Number.div? r (.rational (.fin 1)) (.rational (.fin q)) =
      some (.rational (.fin q⁻¹)) := by
    simp [Number.div?, Number.rational, ExtRat.div?, nonzero, Kind.common, Number.ofExt, Kind.round]
  have first : includeQuotient ⟨.infinity .rational 1, .infinity .rational (-1)⟩
      (.rational (.fin 1)) (.rational (.fin q)) = some (single q⁻¹) := by
    rw [includeQuotient, quotient, quotient]
    rfl
  have next : includeQuotient (single q⁻¹) (.rational (.fin 1)) (.rational (.fin q)) =
      some (single q⁻¹) := by
    rw [includeQuotient, quotient, quotient]
    exact congrArg some (congrArg₂ Interval.mk (ite_self _) (ite_self _))
  rw [Interval.div, isEmpty_single, isEmpty_single, notZero, only.containsZero nonzero]
  change Option.getD (foldlM (fun i (p : Number × Number) => includeQuotient i p.1 p.2)
    ⟨.infinity .rational 1, .infinity .rational (-1)⟩
    (replicate 4 (.rational (.fin 1), .rational (.fin q)))) _ = _
  simp [first, next]

end Interval

/-! ### Forms with single rationals -/

namespace Affine

open Enclosure.Interval (single)

variable {a b : Affine} {ts us : List (Nat × Interval)} {d : Nat} {i : Interval}

structure IsExact (a : Affine) : Prop where
  constant : ∃ q, a.constant = single q
  terms : ∀ e ∈ a.terms, ∃ q, e.2 = single q

theorem IsExact.map {f : Interval → Interval} (h : a.IsExact)
    (keeps : ∀ q, ∃ p, f (single q) = single p) : (a.map f).IsExact where
  constant := by
    obtain ⟨q, eq⟩ := h.constant
    rw [Affine.map, eq]
    exact keeps q
  terms := forall_mem_map.2 fun e mem => by
    obtain ⟨q, eq⟩ := h.terms e mem
    change ∃ p, f e.2 = single p
    rw [eq]
    exact keeps q

theorem IsExact.neg (h : a.IsExact) : a.neg.IsExact := h.map fun q => ⟨-q, rfl⟩

theorem IsExact.scale {p : Rat} (h : a.IsExact) : (a.scale (single p)).IsExact :=
  h.map fun q => ⟨q * p, Interval.mul_single q p⟩

theorem IsExact.add (ha : a.IsExact) (hb : b.IsExact) : (a.add b).IsExact where
  constant := by
    obtain ⟨p, left⟩ := ha.constant
    obtain ⟨q, right⟩ := hb.constant
    exact ⟨p + q, by rw [Affine.add, left, right, Interval.add_single]⟩
  terms := by
    refine forall_mem_addTerms ?_ ha.terms hb.terms
    rintro d i j ⟨p, rfl⟩ ⟨q, rfl⟩
    exact ⟨p + q, Interval.add_single p q⟩

theorem exists_map_rationals {α : Type} {g : Rat → α} {es : List (Nat × α)}
    (h : ∀ e ∈ es, ∃ q, e.2 = g q) : ∃ ts : List (Nat × Rat), ts.map (fun t => (t.1, g t.2)) = es :=
  (Set.ext_iff.1 (Set.range_list_map _) es).2 fun e mem => by
    obtain ⟨q, eq⟩ := h e mem
    exact ⟨(e.1, q), Prod.ext rfl eq.symm⟩

def ofRationals (ts : List (Nat × Rat)) (c : Rat) : Affine :=
  ⟨single c, ts.map fun t => (t.1, single t.2)⟩

theorem IsExact.exists_ofRationals (h : a.IsExact) : ∃ ts c, a = ofRationals ts c := by
  obtain ⟨i, _⟩ := a
  obtain ⟨⟨c, rfl⟩, terms⟩ := h
  obtain ⟨ts, rfl⟩ := exists_map_rationals terms
  exact ⟨ts, c, rfl⟩

theorem IsExact.unify (ha : a.IsExact) (hb : b.IsExact) : a.unify b = (a, b) := by
  obtain ⟨ts, c, rfl⟩ := ha.exists_ofRationals
  obtain ⟨us, d, rfl⟩ := hb.exists_ofRationals
  have same (ts : List (Nat × Rat)) c :
      (ofRationals ts c).map (·.convert .rational) = ofRationals ts c := by
    rw [ofRationals, Affine.map, map_map]
    rfl
  exact Prod.ext (same ts c) (same us d)

theorem reduce_single (q : Rat) : (Coefficient.range (single q)).reduce = .rational q := by
  have point : (single q).isPoint = true := by
    rw [Interval.isPoint, show (single q).lo.same (single q).hi = true from decide_eq_true rfl]
    rfl
  rw [Coefficient.reduce, if_pos point]
  rfl

theorem toLinearForm_ofRationals (ts : List (Nat × Rat)) (c : Rat) :
    (ofRationals ts c).toLinearForm = .ofRationals ts c := by
  simp [toLinearForm, ofRationals, LinearForm.ofRationals, reduce_single]

private theorem lookup_cons {α : Type} (e : Nat × α) (ts : List (Nat × α)) (d : Nat) :
    (e :: ts).lookup d = if d = e.1 then some e.2 else ts.lookup d := by
  by_cases same : d = e.1
  · rw [if_pos same, same, lookup_cons_self]
  · rw [if_neg same, List.lookup_cons, beq_eq_false_iff_ne.2 same]

theorem lookup_map {α β : Type} (f : α → β) (ts : List (Nat × α)) (d : Nat) :
    (ts.map fun t => (t.1, f t.2)).lookup d = (ts.lookup d).map f := by
  induction ts with
  | nil => rfl
  | cons e ts ih =>
    rw [map_cons, lookup_cons, lookup_cons, ih]
    split <;> rfl

private theorem lookup_addTerm (new : d ∉ ts.map Prod.fst) (e : Nat) :
    (addTerm d i ts).lookup e = if e = d then some i else ts.lookup e := by
  fun_induction addTerm d i ts with
  | case1 => exact lookup_cons (d, i) [] e
  | case2 f j rest less => exact lookup_cons (d, i) _ e
  | case3 j rest => simp at new
  | case4 f j rest notLess ne ih =>
    grind

theorem lookup_addTerms (nodup : (us.map Prod.fst).Nodup)
    (new : ∀ d ∈ us.map Prod.fst, d ∉ ts.map Prod.fst) (e : Nat) :
    (us.foldl (fun acc e => addTerm e.1 e.2 acc) ts).lookup e =
      (us.lookup e).or (ts.lookup e) := by
  induction us generalizing ts with
  | nil => rw [foldl_nil, lookup_nil, Option.none_or]
  | cons u us ih =>
    rw [map_cons, nodup_cons] at nodup
    rw [map_cons, forall_mem_cons] at new
    have others : ∀ d ∈ us.map Prod.fst, d ∉ (addTerm u.1 u.2 ts).map Prod.fst := by
      intro d inNew inOld
      obtain ⟨e, mem, rfl⟩ := mem_map.1 inOld
      rcases mem_addTerm mem with rfl | old | ⟨j, -, rfl⟩
      · exact nodup.1 inNew
      · exact new.2 e.1 inNew (mem_map_of_mem old)
      · exact nodup.1 inNew
    have absent : us.lookup u.1 = none := lookup_eq_none_iff.2 fun e mem =>
      bne_iff_ne.2 fun same => nodup.1 (mem_map.2 ⟨e, mem, same.symm⟩)
    rw [foldl_cons, ih nodup.2 others, lookup_addTerm new.1, lookup_cons]
    split
    · rename_i same
      rw [same, absent, Option.none_or, Option.some_or]
    · rfl

end Affine

namespace Term

variable {t : Term} {a : Affine}

theorem isExact_exactAffine? (constants : t.AllConstants fun c => ∃ q, c = .rational q)
    (h : t.exactAffine? = some a) : a.IsExact := by
  fun_induction exactAffine? t generalizing a with
  | case1 c =>
    obtain rfl := Option.some.inj h
    obtain ⟨q, rfl⟩ := constants
    exact ⟨⟨q, rfl⟩, by simp [ofInterval]⟩
  | case2 d =>
    obtain rfl := Option.some.inj h
    exact ⟨⟨0, rfl⟩, by simpa [ofDimension] using ⟨1, rfl⟩⟩
  | case3 p t ih =>
    obtain ⟨b, found, rfl⟩ := Option.map_eq_some_iff.1 h
    exact (ih constants found).neg
  | case4 p t ih => exact ih constants h
  | case5 => cases h
  | case6 op p s t ih ih' =>
    obtain ⟨b, left, h⟩ := Option.bind_eq_some_iff.1 h
    obtain ⟨c, right, h⟩ := Option.bind_eq_some_iff.1 h
    have hb := ih constants.1 left
    have hc := ih' constants.2 right
    rw [hb.unify hc] at h
    obtain ⟨p, eq⟩ := hb.constant
    obtain ⟨q, eq'⟩ := hc.constant
    obtain ⟨-, rfl⟩ | ⟨-, rfl⟩ | ⟨-, -, rfl⟩ | ⟨-, -, rfl⟩ | ⟨-, -, nonzero, rfl⟩ := combine?_cases h
    · exact hb.add hc
    · exact hb.add hc.neg
    · rw [eq]
      exact hc.scale
    · rw [eq']
      exact hb.scale
    · rw [eq'] at nonzero ⊢
      have unit : Interval.point (.one (Interval.single q).kind) = .single 1 := rfl
      have nonzero : q ≠ 0 := by
        rintro rfl
        exact absurd nonzero (by decide)
      rw [unit, Interval.inv_single nonzero]
      exact hb.scale
  | case7 => cases h

theorem roundsOutward_of_kinds (valid : t.Valid)
    (kinds : t.AllConstants fun c => c.kind ≠ .double) : t.roundsOutward = true := by
  induction t with
  | const c => rfl
  | dim d => rfl
  | unary op format policy t ih => exact ih valid kinds
  | binary op format policy s t ih ih' =>
    rw [roundsOutward, ih valid.1 kinds.1, ih' valid.2 kinds.2]
    split
    · rename_i a b c _ _ found
      obtain ⟨k, kind, formed, -⟩ := isFormed_exactAffine? (P := fun _ => True)
        (Q := (· ≠ .double)) (by simp) valid kinds (by simp) found
      have : c.constant.kind ≠ .double := fun double => kind (formed.constant.kind.symm.trans double)
      simp [this]
    · rfl

theorem exactAffine?_foldl {ts : List (Nat × Rat)} (exact : a.IsExact)
    (h : t.exactAffine? = some a) :
    ((ts.map fun e => (e.1, Coefficient.rational e.2)).foldl
      (fun t e => t.add (.mul (.const e.2) (.dim e.1))) t).exactAffine? =
      some ⟨a.constant, (ts.map fun e => (e.1, Interval.single e.2)).foldl
        (fun acc e => addTerm e.1 e.2 acc) a.terms⟩ := by
  induction ts generalizing t a with
  | nil => exact h
  | cons e ts ih =>
    obtain ⟨d, q⟩ := e
    have product : (mul (const (.rational q)) (dim d)).exactAffine? =
        some ⟨.single (0 * q), [(d, .single (1 * q))]⟩ := by
      rw [← Interval.mul_single, ← Interval.mul_single]
      rfl
    have exactProduct : (mk (.single (0 * q)) [(d, .single (1 * q))]).IsExact :=
      ⟨⟨_, rfl⟩, by simp⟩
    have sum : a.add ⟨.single (0 * q), [(d, .single (1 * q))]⟩ =
        ⟨a.constant, addTerm d (.single q) a.terms⟩ := by
      obtain ⟨c, eq⟩ := exact.constant
      rw [Affine.add, eq, Interval.add_single, zero_mul, one_mul, add_zero]
      rfl
    refine ih (sum ▸ exact.add exactProduct) ?_
    change (binary .add .real _ t _).exactAffine? = _
    rw [exactAffine?, h, product, ← sum]
    change combine? .add (a.unify _).1 (a.unify _).2 = _
    rw [exact.unify exactProduct]
    rfl

theorem toLinear?_ofLinearForm {f : LinearForm} (constant : ∃ q, f.constant = .rational q)
    (rationals : ∀ e ∈ f.entries, ∃ q, e.2 = .rational q) (nodup : (f.entries.map Prod.fst).Nodup) :
    ∃ g, (ofLinearForm f).toLinear? = some g ∧ g.constant = f.constant ∧
      ∀ d, g.coefficient? d = f.coefficient? d := by
  obtain ⟨c, constant⟩ := constant
  obtain ⟨ts, entries⟩ := exists_map_rationals rationals
  have start : (ofInterval (.single c)).IsExact := ⟨⟨c, rfl⟩, by simp [ofInterval]⟩
  have found : (ofLinearForm f).exactAffine? = some ⟨.single c, (ts.map fun e =>
      (e.1, .single e.2)).foldl (fun acc e => addTerm e.1 e.2 acc) []⟩ := by
    rw [ofLinearForm, ← entries, constant]
    exact exactAffine?_foldl start rfl
  refine ⟨_, congrArg (Option.map toLinearForm) found, ?_, fun d => ?_⟩
  · exact (reduce_single c).trans constant.symm
  · rw [← entries, map_map] at nodup
    rw [LinearForm.coefficient?, LinearForm.coefficient?, ← entries, lookup_map]
    refine (lookup_map (fun i => (Coefficient.range i).reduce) _ d).trans ?_
    rw [lookup_addTerms (by rwa [map_map]) (by simp), lookup_nil, Option.or_none,
      lookup_map, Option.map_map]
    exact congrArg (Option.map · (ts.lookup d)) (funext reduce_single)

end Term

/-! ### Real choices of coefficients -/

/-- The real is the sum of the terms at a point, for some choice of reals from the coefficients. -/
def Terms.SumsToReal (x : List Rat) : List (Nat × Coefficient) → ℝ → Prop
  | [], r => r = 0
  | (d, c) :: es, r =>
    ∃ w, c.toInterval.Encloses w ∧ SumsToReal x es (r - w * (x.getD d 0 : Rat))

/-- The real is the value of the form at a point, for some choice of reals from the coefficients
and the constant. -/
def LinearForm.TakesReal (f : LinearForm) (x : List Rat) (r : ℝ) : Prop :=
  ∃ w, f.constant.toInterval.Encloses w ∧ Terms.SumsToReal x f.entries (r - w)

section Choices

variable {x : List Rat} {es : List (Nat × Coefficient)} {u v : Rat} {r s : ℝ}

private theorem encloses_mixture {i : Interval} {p q : Rat} (hp : i.Has p) (hq : i.Has q)
    (low : 0 ≤ s) (high : s ≤ 1) : i.Encloses ((1 - s) * p + s * q) := by
  rcases le_total (p : ℝ) q with _ | _
  · exact ⟨⟨p, hp, by nlinarith⟩, q, hq, by nlinarith⟩
  · exact ⟨⟨q, hq, by nlinarith⟩, p, hp, by nlinarith⟩

private theorem sumsToReal_mixture (hu : Terms.SumsTo x es u) (hv : Terms.SumsTo x es v)
    (low : 0 ≤ s) (high : s ≤ 1) : Terms.SumsToReal x es ((1 - s) * u + s * v) := by
  induction hu generalizing v with
  | nil =>
    rw [Terms.sumsTo_nil.1 hv]
    simp [Terms.SumsToReal]
  | @cons d c p es u hp rest ih =>
    obtain ⟨q, hq, rest'⟩ := Terms.sumsTo_cons.1 hv
    refine ⟨(1 - s) * p + s * q, encloses_mixture hp hq low high, ?_⟩
    convert ih rest' using 1
    push_cast
    ring

theorem LinearForm.takesReal_of_brackets {f : LinearForm}
    (h : Brackets {v | f.Takes x v} r) : f.TakesReal x r := by
  obtain ⟨⟨u, ⟨k, hk, sum⟩, below⟩, v, ⟨l, hl, sum'⟩, above⟩ := h
  obtain ⟨s, ⟨low, high⟩, rfl⟩ : ∃ s : ℝ, (0 ≤ s ∧ s ≤ 1) ∧ (1 - s) * u + s * v = r := by
    have between : r ∈ segment ℝ (u : ℝ) v := by
      rw [segment_eq_Icc (below.trans above)]
      exact ⟨below, above⟩
    obtain ⟨a, b, _, hb, one, rfl⟩ := between
    exact ⟨b, ⟨hb, by linarith⟩, by rw [← one, add_sub_cancel_right]; rfl⟩
  refine ⟨(1 - s) * k + s * l, encloses_mixture hk hl low high, ?_⟩
  convert sumsToReal_mixture sum sum' low high using 1
  push_cast
  ring

end Choices

/-! ### Conversion of terms -/

/-- A term with rational constants has rational coefficients and the value of its form wherever it
has one, and a form with rational coefficients comes back from its term. -/
theorem affine_terms_convert_exactly (t : Term) (f : LinearForm) :
    (t.AllConstants (fun c => ∃ q, c = .rational q) → t.toLinear? = some f →
      ∃ ts c, f = .ofRationals ts c ∧ ∀ x r, t.Takes x r → r = (sumAt ts x + c : Rat)) ∧
    ((∃ q, f.constant = .rational q) → (∀ e ∈ f.entries, ∃ q, e.2 = .rational q) →
      (f.entries.map Prod.fst).Nodup →
      ∃ g, (Term.ofLinearForm f).toLinear? = some g ∧ g.constant = f.constant ∧
        ∀ d, g.coefficient? d = f.coefficient? d) ∧
    (t.Valid → t.toLinear? = some f →
      (t.AllConstants (fun c => c.kind ≠ .double) → t.roundsOutward = true) ∧
        (t.roundsOutward = true → ∀ x r, t.Takes x r → f.TakesReal x r)) := by
  have values {x : List Rat} {r : ℝ} (valid : t.Valid) (outward : t.roundsOutward = true)
      (h : t.toLinear? = some f) (takes : t.Takes x r) : Brackets {v | f.Takes x v} r :=
    (Term.toLinear?_spec valid (fun _ => Term.lt_support) outward h).2.2 x r takes
  refine ⟨fun rationals h => ?_, Term.toLinear?_ofLinearForm, fun valid h => ⟨fun kinds => ?_,
    fun outward x r takes => LinearForm.takesReal_of_brackets (values valid outward h takes)⟩⟩
  · have valid : t.Valid := Term.valid_iff.2 (rationals.mono (by
      rintro _ ⟨q, rfl⟩
      exact ⟨Interval.IsRational.valid ⟨rfl, rfl⟩, by simp [Coefficient.kind, Coefficient.rational, Number.rational]⟩))
    have outward := Term.roundsOutward_of_kinds valid (rationals.mono (by
      rintro _ ⟨q, rfl⟩
      simp [Coefficient.kind, Coefficient.rational, Number.rational]))
    obtain ⟨a, found, rfl⟩ := Option.map_eq_some_iff.1 h
    obtain ⟨ts, c, rfl⟩ := (Term.isExact_exactAffine? rationals found).exists_ofRationals
    refine ⟨ts, c, Affine.toLinearForm_ofRationals ts c, fun x r takes => ?_⟩
    have only := values valid outward h takes
    simp only [Affine.toLinearForm_ofRationals, LinearForm.takes_ofRationals] at only
    obtain ⟨⟨_, rfl, below⟩, _, rfl, above⟩ := only
    exact le_antisymm above below
  · exact Term.roundsOutward_of_kinds valid kinds

/-- The terms of a factor cancel, a form has its dimensions in no order, and ranges of binary and
rational numbers meet. -/
theorem cancelled_sum_converts :
    let product : Term := .mul (.binary .sub .real .nearest (.add (.dim 0) (.const (.rational 3)))
      (.dim 0)) (.dim 1)
    let form : LinearForm := .ofRationals [(2, 1 / 3), (0, -2)] 5
    let ranges : Term := .add (.const (.range ⟨⟨.binary 24, .fin 1⟩, ⟨.binary 24, .fin 2⟩⟩))
      (.mul (.const (.range (.ofExt (.fin 0) (.fin 1)))) (.dim 0))
    (∃ ts c, product.toLinear? = some (.ofRationals ts c) ∧
      ∀ x r, product.Takes x r → r = (sumAt ts x + c : Rat)) ∧
    (∃ g, (Term.ofLinearForm form).toLinear? = some g ∧ g.constant = form.constant ∧
      ∀ d, g.coefficient? d = form.coefficient? d) ∧
    ∃ f, ranges.toLinear? = some f ∧ ranges.roundsOutward = true ∧
      ∀ x r, ranges.Takes x r → f.TakesReal x r := by
  intro product form ranges
  refine ⟨?_, ?_, ?_⟩
  · obtain ⟨f, found⟩ := Option.isSome_iff_exists.1
      (show product.toLinear?.isSome = true by decide +kernel)
    obtain ⟨ts, c, rfl, values⟩ := (affine_terms_convert_exactly product f).1
      ⟨⟨⟨trivial, 3, rfl⟩, trivial⟩, trivial⟩ found
    exact ⟨ts, c, found, values⟩
  · exact (affine_terms_convert_exactly product form).2.1 ⟨5, rfl⟩
      (List.forall_mem_map.2 fun _ _ => ⟨_, rfl⟩) (by decide)
  · obtain ⟨f, found⟩ := Option.isSome_iff_exists.1
      (show ranges.toLinear?.isSome = true by decide +kernel)
    have binary {v : ExtRat} : Number.Valid ⟨.binary 24, v⟩ := fun double => Kind.noConfusion double
    have valid : ranges.Valid := ⟨⟨⟨rfl, binary, binary⟩, by decide⟩,
      ⟨Interval.IsRational.valid ⟨rfl, rfl⟩, by decide⟩, trivial⟩
    obtain ⟨outward, values⟩ := (affine_terms_convert_exactly ranges f).2.2 valid found
    have outward := outward ⟨show Kind.binary 24 ≠ .double by decide,
      show Kind.rational ≠ .double by decide, trivial⟩
    exact ⟨f, found, outward, values outward⟩

/-- A sum of doubles with an error that overflows counts as exact, so that the form misses it. -/
theorem overflowing_double_sum_not_taken :
    let sum : Term := .add (.const (.range (.point ⟨.double, .fin (-3 * 2 ^ 970)⟩)))
      (.const (.range (.point ⟨.double, .fin Double.maxFinite⟩)))
    let value : Rat := -3 * 2 ^ 970 + Double.maxFinite
    ∃ f, sum.Valid ∧ sum.toLinear? = some f ∧ sum.Takes [] value ∧ ¬ f.TakesReal [] value := by
  intro sum value
  have small : Double.IsDouble (.fin (-3 * 2 ^ 970)) := by
    have kept : Double.nearest (-3 * 2 ^ 970) = .fin (-3 * 2 ^ 970) := by decide +kernel
    exact kept ▸ Double.isDouble_nearest _
  refine ⟨⟨.exact ⟨.double, .fin (2 ^ 1024 - 2 ^ 972)⟩, .sparse []⟩, ?_, by decide +kernel, ?_, ?_⟩
  · exact ⟨⟨⟨rfl, fun _ => small, fun _ => small⟩, by decide⟩, ⟨rfl, fun _ =>
      Double.isDouble_maxFinite, fun _ => Double.isDouble_maxFinite⟩, by decide⟩
  · have total := (Term.takes_exact .double (-3 * 2 ^ 970)).add
      (Term.takes_exact (x := []) .double Double.maxFinite)
    rwa [← Rat.cast_add] at total
  · rintro ⟨w, chosen, rest⟩
    obtain rfl : (value : ℝ) = w := sub_eq_zero.1 rest
    have has := Interval.encloses_ratCast.1 chosen
    exact absurd has.1 (by decide +kernel)

end Enclosure
