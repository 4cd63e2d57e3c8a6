import Enclosure.Proofs.Exports
import Enclosure.Proofs.Terms

/-!
# Enclosures of terms

A term over bounded dimensions is enclosed in two ways, for every kind of numbers that rounds
outward.
-/

namespace Enclosure

def LinearForm.HasWeights (f : LinearForm) (ts : List (Nat × Rat)) : Prop :=
  f.entries.map (fun e => (e.1, e.2.rational?)) = ts.map fun t => (t.1, some t.2)

section Weights

variable {f : LinearForm} {ts : List (Nat × Rat)} {x : List Rat} {r : ℝ}

theorem LinearForm.exists_hasWeights (finite : ∀ e ∈ f.entries, e.2.rational? ≠ none) :
    ∃ ts, f.HasWeights ts := by
  refine ⟨f.entries.map fun e => (e.1, e.2.rational?.getD 0), ?_⟩
  rw [HasWeights, List.map_map]
  apply List.map_congr_left
  intro e mem
  obtain ⟨q, number⟩ := Option.ne_none_iff_exists'.1 (finite e mem)
  simp [number]

theorem LinearForm.HasWeights.dims_eq (h : f.HasWeights ts) :
    ts.map Prod.fst = f.entries.map Prod.fst := by
  have dims := congrArg (List.map Prod.fst) h
  simpa [Function.comp_def] using dims.symm

theorem LinearForm.HasWeights.encloses_sub (h : f.HasWeights ts)
    (around : Brackets {v | f.Takes x v} r) : f.constant.toInterval.Encloses (r - sumAt ts x) := by
  have offset (v : Rat) (takes : f.Takes x v) : f.constant.toInterval.Has (v - sumAt ts x) := by
    obtain ⟨c, has, sum⟩ := takes
    rwa [← (Terms.sumsTo_of_rational? h).1 sum, sub_sub_cancel]
  obtain ⟨⟨p, lower, _⟩, q, upper, _⟩ := around
  refine ⟨⟨_, offset p lower, ?_⟩, _, offset q upper, ?_⟩
  · push_cast
    linarith
  · push_cast
    linarith

end Weights

namespace Term

variable {t : Term} {k : Kind} {bounds : List Interval}

/-- Over bounds for all its dimensions, a term evaluates to an interval that has every value of the
term at every point within the bounds. -/
theorem eval_encloses_values (directed : k ≠ .double) (bits : k ≠ .binary 0)
    (constants : t.AllConstants Coefficient.Fits) (support : t.support ≤ bounds.length)
    (ranges : ∀ i ∈ bounds, i.Fits i.kind) :
    ∃ i, t.eval bounds k = .ok i ∧ ∀ x, InBox bounds x →
      (∀ r, t.Takes x r → i.Encloses r) ∧ ∀ q : Rat, t.Takes x q → i.contains (.fin q) = true := by
  obtain ⟨i, run, -, values⟩ := eval_spec (Kind.isOutward_of_ne directed bits) t
    (constants.mono fun c fits => fits.fitsIn k)
    (fun d occurs => (lt_support occurs).trans_le support) ranges
  refine ⟨i, run, fun x inBox => ⟨values x inBox, fun q takes => ?_⟩⟩
  obtain ⟨lower, upper⟩ := Interval.encloses_ratCast.1 (values x inBox q takes)
  simp [Interval.contains, lower, upper]

/-- Half of seven is rounded to an integer either way, and both are in the interval to which the
quotient of `[7, 8]` and `[-2, 2]` evaluates with two bits. -/
theorem rounded_half_enclosed :
    let quotient : Term := .binary .div .integer .nearest (.dim 0) (.dim 1)
    let bounds := [Interval.ofExt (.fin 7) (.fin 8), .ofExt (.fin (-2)) (.fin 2)]
    quotient.support ≤ bounds.length ∧ InBox bounds [7, 2] ∧
    quotient.Takes [7, 2] (3 : Rat) ∧ quotient.Takes [7, 2] (4 : Rat) ∧
    ∃ i, quotient.eval bounds (.binary 2) = .ok i ∧ i.contains (.fin 3) = true ∧
      i.contains (.fin 4) = true := by
  intro quotient bounds
  have inBox : InBox bounds [7, 2] := by
    refine inBox_cons.2 ⟨?_, inBox_cons.2 ⟨?_, inBox_nil⟩⟩
    · exact ⟨by decide, by decide⟩
    · exact ⟨by decide, by decide⟩
  have takes (n : ℤ) (near : |(7 / 2 : ℝ) - n| ≤ 1 / 2) : quotient.Takes [7, 2] n :=
    ⟨(7 : Rat), (2 : Rat), 7 / 2, rfl, rfl, ⟨by norm_num, by norm_num⟩, n, near, rfl⟩
  have three : quotient.Takes [7, 2] (3 : Rat) := by
    simpa using takes 3 (by norm_num [abs_le])
  have four : quotient.Takes [7, 2] (4 : Rat) := by
    simpa using takes 4 (by norm_num [abs_le])
  have ranges : ∀ i ∈ bounds, i.Fits i.kind :=
    List.forall_mem_cons.2 ⟨(Interval.isRational_ofExt _ _).fits,
      List.forall_mem_singleton.2 (Interval.isRational_ofExt _ _).fits⟩
  obtain ⟨i, run, values⟩ := eval_encloses_values (t := quotient) (k := .binary 2) (by decide)
    (by decide) ⟨trivial, trivial⟩ (by decide) ranges
  obtain ⟨-, rationals⟩ := values _ inBox
  exact ⟨by decide, inBox, three, four, i, run, rationals 3 three, rationals 4 four⟩

/-- Over bounds for all its dimensions, a term is linearized to a form that has one finite number
for each dimension. -/
theorem linearize_offset_in_constant (directed : k ≠ .double) (bits : k ≠ .binary 0)
    (constants : t.AllConstants Coefficient.Fits) (support : t.support ≤ bounds.length)
    (ranges : ∀ i ∈ bounds, i.Fits i.kind) :
    ∃ f ts, t.linearize bounds k = .ok f ∧ f.HasWeights ts ∧ (ts.map Prod.fst).Nodup ∧
      ∀ x, InBox bounds x → ∀ y, t.Takes x y →
        ∃ c, f.constant.toInterval.Encloses c ∧ y = sumAt ts x + c := by
  obtain ⟨f, run, valid, -, finite, values⟩ := linearize_spec (Kind.isOutward_of_ne directed bits)
    (constants.mono fun c fits => fits.fitsIn k)
    (fun d occurs => (lt_support occurs).trans_le support) ranges
  obtain ⟨ts, weights⟩ := LinearForm.exists_hasWeights finite
  refine ⟨f, ts, run, weights, weights.dims_eq ▸ valid.nodup, fun x inBox y takes => ?_⟩
  exact ⟨_, weights.encloses_sub (values x inBox x (fun d _ => inBox d) y takes), by ring⟩

/-- In a product of two dimensions, one of them plus a constant from `[0, 1]`, one factor is kept
and the other bounded, here with two bits. -/
theorem product_offset_in_constant :
    let between : Coefficient := .range (.ofExt (.fin 0) (.fin 1))
    let product : Term := .mul (.dim 0) (.add (.dim 1) (.const between))
    let bounds := [Interval.ofExt (.fin 0) (.fin 2), .ofExt (.fin 1) (.fin (10 / 3))]
    product.AllConstants Coefficient.Fits ∧ product.support ≤ bounds.length ∧
    InBox bounds [2, 3] ∧ product.Takes [2, 3] 7 ∧
    ∃ f ts, product.linearize bounds (.binary 2) = .ok f ∧ f.HasWeights ts ∧
      (ts.map Prod.fst).Nodup ∧
      ∃ c, f.constant.toInterval.Encloses c ∧ 7 = sumAt ts [2, 3] + c := by
  intro between product bounds
  have inBox : InBox bounds [2, 3] := by
    refine inBox_cons.2 ⟨?_, inBox_cons.2 ⟨?_, inBox_nil⟩⟩
    · exact ⟨by decide, by decide⟩
    · exact ⟨by decide, ExtRat.fin_le_fin.2 (by norm_num)⟩
  have seven : product.Takes [2, 3] 7 := by
    have left : (Term.dim 0).Takes [2, 3] (2 : Rat) := rfl
    have right : (Term.dim 1).Takes [2, 3] (3 : Rat) := rfl
    have half : (Term.const between).Takes [2, 3] (1 / 2 : Rat) :=
      Interval.encloses_ratCast.2
        ⟨ExtRat.fin_le_fin.2 (by norm_num), ExtRat.fin_le_fin.2 (by norm_num)⟩
    have whole := left.mul (right.add half)
    norm_num at whole
    exact whole
  have constants : product.AllConstants Coefficient.Fits :=
    ⟨trivial, trivial, (Interval.isRational_ofExt _ _).fits⟩
  have ranges : ∀ i ∈ bounds, i.Fits i.kind :=
    List.forall_mem_cons.2 ⟨(Interval.isRational_ofExt _ _).fits,
      List.forall_mem_singleton.2 (Interval.isRational_ofExt _ _).fits⟩
  obtain ⟨f, ts, run, weights, nodup, values⟩ := linearize_offset_in_constant (k := .binary 2)
    (by decide) (by decide) constants (by decide) ranges
  exact ⟨constants, by decide, inBox, seven, f, ts, run, weights, nodup,
    values _ inBox _ seven⟩

end Term

end Enclosure
