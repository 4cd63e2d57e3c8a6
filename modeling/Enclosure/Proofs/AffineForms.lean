import Enclosure.Proofs.RealIntervals

/-!
# Values of affine forms

An affine form takes one value at a point for each choice of members of its intervals.
-/

namespace Enclosure

open List Interval Coefficient Terms

/-! ### Values without gaps -/

namespace Terms

variable {x : List Rat} {es : List (Nat × Coefficient)} {u v w : Rat}

private theorem exists_product {c : Coefficient} {p q t : Rat} (hp : c.Has p) (hq : c.Has q)
    (lower : p * t ≤ v) (upper : v ≤ q * t) : ∃ m, c.Has m ∧ m * t = v := by
  by_cases zero : t = 0
  · refine ⟨p, hp, ?_⟩
    rw [zero, mul_zero] at lower upper ⊢
    exact le_antisymm lower upper
  · refine ⟨v / t, ?_, div_mul_cancel₀ v zero⟩
    rcases lt_or_gt_of_ne zero with negative | positive
    · exact c.toInterval.ordConnected.out hq hp
        ⟨(le_div_iff_of_neg negative).2 upper, (div_le_iff_of_neg negative).2 lower⟩
    · exact c.toInterval.ordConnected.out hp hq
        ⟨(le_div_iff₀ positive).2 lower, (div_le_iff₀ positive).2 upper⟩

theorem SumsTo.between (hu : SumsTo x es u) (hw : SumsTo x es w) (lower : u ≤ v) (upper : v ≤ w) :
    SumsTo x es v := by
  induction hu generalizing v w with
  | nil =>
    rw [sumsTo_nil] at hw ⊢
    exact le_antisymm (upper.trans hw.le) lower
  | @cons d c p es u hp rest ih =>
    obtain ⟨q, hq, rest'⟩ := sumsTo_cons.1 hw
    -- either the first term can make up the difference, or the others can after it
    rcases le_total v (q * x.getD d 0 + u) with _ | _
    · obtain ⟨m, hm, product⟩ := exists_product (t := x.getD d 0) (v := v - u) hp hq
        (by linarith) (by linarith)
      exact sumsTo_cons.2 ⟨m, hm, by rwa [product, sub_sub_cancel]⟩
    · exact sumsTo_cons.2 ⟨q, hq, ih rest' (by linarith) (by linarith)⟩

end Terms

theorem LinearForm.ordConnected (f : LinearForm) (x : List Rat) :
    {v | f.Takes x v}.OrdConnected := by
  constructor
  rintro u ⟨k, hk, sum⟩ w ⟨k', hk', sum'⟩ v ⟨_, _⟩
  rcases le_total (v - k') (u - k) with _ | others
  · refine ⟨v - (u - k), f.constant.toInterval.ordConnected.out hk hk' ⟨?_, ?_⟩, ?_⟩
    · linarith
    · linarith
    · rwa [sub_sub_cancel]
  · exact ⟨k', hk', sum.between sum' others (by linarith)⟩

namespace Affine

open Terms (SumsTo)

variable {a b : Affine} {ts us : List (Nat × Interval)} {x : List Rat} {k : Kind} {d : Nat}
  {i : Interval} {q u v : Rat} {P : Nat → Prop} {f : Interval → Interval} {bounds : List Interval}

def ranges (ts : List (Nat × Interval)) : List (Nat × Coefficient) :=
  ts.map fun e => (e.1, .range e.2)

def Takes (a : Affine) (x : List Rat) (v : Rat) : Prop :=
  ∃ m, a.constant.Has m ∧ SumsTo x (ranges a.terms) (v - m)

/-- The intervals are of one kind, and there is one for each of some dimensions, in order. -/
structure IsFormed (k : Kind) (P : Nat → Prop) (a : Affine) : Prop where
  constant : a.constant.IsOf k
  terms : ∀ e ∈ a.terms, e.2.IsOf k
  sorted : a.terms.Pairwise fun e f => e.1 < f.1
  dims : ∀ e ∈ a.terms, P e.1

/-! ### Sums -/

theorem sumsTo_ranges_cons : SumsTo x (ranges ((d, i) :: ts)) v ↔
    ∃ m, i.Has m ∧ SumsTo x (ranges ts) (v - m * x.getD d 0) := sumsTo_cons

theorem mem_addTerm {e : Nat × Interval} (mem : e ∈ addTerm d i ts) :
    e = (d, i) ∨ e ∈ ts ∨ ∃ j, (d, j) ∈ ts ∧ e = (d, j.add i) := by
  fun_induction addTerm d i ts with
  | case1 => exact .inl (by simpa using mem)
  | case2 f j rest less => exact (mem_cons.1 mem).imp id .inl
  | case3 j rest =>
    rcases mem_cons.1 mem with rfl | old
    · exact .inr (.inr ⟨j, by simp, rfl⟩)
    · exact .inr (.inl (by simp [old]))
  | case4 f j rest notLess ne ih =>
    rcases mem_cons.1 mem with rfl | old
    · exact .inr (.inl (by simp))
    · exact (ih old).imp id (.imp (by simp +contextual) (by
        rintro ⟨j', inRest, rfl⟩
        exact ⟨j', by simp [inRest], rfl⟩))

theorem sorted_addTerm (sorted : ts.Pairwise fun e f => e.1 < f.1) :
    (addTerm d i ts).Pairwise fun e f => e.1 < f.1 := by
  fun_induction addTerm d i ts with
  | case1 => simp
  | case2 f j rest less =>
    obtain ⟨first, rest⟩ := pairwise_cons.1 sorted
    refine pairwise_cons.2 ⟨?_, sorted⟩
    intro e mem
    rcases mem_cons.1 mem with rfl | old
    · exact less
    · exact less.trans (first e old)
  | case3 j rest =>
    obtain ⟨first, rest⟩ := pairwise_cons.1 sorted
    exact pairwise_cons.2 ⟨first, rest⟩
  | case4 f j rest notLess ne ih =>
    obtain ⟨first, rest⟩ := pairwise_cons.1 sorted
    refine pairwise_cons.2 ⟨?_, ih rest⟩
    intro e mem
    have after : f < d := by omega
    rcases mem_addTerm mem with rfl | old | ⟨-, -, rfl⟩
    · exact after
    · exact first e old
    · exact after

theorem sumsTo_addTerm (directed : k ≠ .double) (kinds : ∀ e ∈ ts, e.2.IsOf k) (hi : i.Has q)
    (sum : SumsTo x (ranges ts) v) : SumsTo x (ranges (addTerm d i ts)) (v + q * x.getD d 0) := by
  fun_induction addTerm d i ts generalizing v with
  | case1 => exact sumsTo_ranges_cons.2 ⟨q, hi, by simpa using sum⟩
  | case2 f j rest less => exact sumsTo_ranges_cons.2 ⟨q, hi, by simpa using sum⟩
  | case3 j rest =>
    obtain ⟨m, hm, others⟩ := sumsTo_ranges_cons.1 sum
    have kind := kinds _ (mem_cons_self)
    refine sumsTo_ranges_cons.2 ⟨m + q, .add (kind.lo_ne directed) (kind.hi_ne directed) hm hi, ?_⟩
    rwa [show v + q * x.getD d 0 - (m + q) * x.getD d 0 = v - m * x.getD d 0 by ring]
  | case4 f j rest notLess ne ih =>
    obtain ⟨m, hm, others⟩ := sumsTo_ranges_cons.1 sum
    refine sumsTo_ranges_cons.2 ⟨m, hm, ?_⟩
    rw [add_sub_right_comm]
    exact ih (fun e mem => kinds e (by simp [mem])) others

theorem forall_mem_addTerms {Q : Nat × Interval → Prop}
    (sums : ∀ d i j, Q (d, i) → Q (d, j) → Q (d, i.add j)) (old : ∀ e ∈ ts, Q e)
    (new : ∀ e ∈ us, Q e) : ∀ e ∈ us.foldl (fun acc e => addTerm e.1 e.2 acc) ts, Q e := by
  induction us generalizing ts with
  | nil => exact old
  | cons u us ih =>
    rw [forall_mem_cons] at new
    refine ih (fun e mem => ?_) new.2
    rcases mem_addTerm mem with rfl | inTerms | ⟨j, inTerms, rfl⟩
    · exact new.1
    · exact old e inTerms
    · exact sums u.1 j u.2 (old _ inTerms) new.1

theorem IsFormed.add (ha : a.IsFormed k P) (hb : b.IsFormed k P) : (a.add b).IsFormed k P where
  constant := ha.constant.add hb.constant
  terms := forall_mem_addTerms (fun _ _ _ hi hj => hi.add hj) ha.terms hb.terms
  sorted := foldlRecOn b.terms _ ha.sorted fun _ sorted _ _ => sorted_addTerm sorted
  dims := forall_mem_addTerms (fun _ _ _ h _ => h) ha.dims hb.dims

private theorem sumsTo_addTerms (directed : k ≠ .double) (kinds : ∀ e ∈ ts, e.2.IsOf k)
    (kinds' : ∀ e ∈ us, e.2.IsOf k) (sum : SumsTo x (ranges ts) u) (sum' : SumsTo x (ranges us) v) :
    SumsTo x (ranges (us.foldl (fun acc e => addTerm e.1 e.2 acc) ts)) (u + v) := by
  induction us generalizing ts u v with
  | nil => rwa [sumsTo_nil.1 sum', add_zero]
  | cons e us ih =>
    obtain ⟨kind, others⟩ := forall_mem_cons.1 kinds'
    obtain ⟨m, hm, rest⟩ := sumsTo_ranges_cons.1 sum'
    have single : ∀ f ∈ [e], f.2.IsOf k := forall_mem_singleton.2 kind
    have total := ih (forall_mem_addTerms (fun _ _ _ hi hj => hi.add hj) kinds single) others
      (sumsTo_addTerm directed kinds hm sum) rest
    rwa [add_assoc, add_sub_cancel] at total

theorem Takes.add (directed : k ≠ .double) (ha : a.IsFormed k P) (hb : b.IsFormed k P)
    (hu : a.Takes x u) (hv : b.Takes x v) : (a.add b).Takes x (u + v) := by
  obtain ⟨m, hm, sum⟩ := hu
  obtain ⟨m', hm', sum'⟩ := hv
  refine ⟨m + m', .add (ha.constant.lo_ne directed) (ha.constant.hi_ne directed) hm hm', ?_⟩
  have total := sumsTo_addTerms directed ha.terms hb.terms sum sum'
  rwa [show u - m + (v - m') = u + v - (m + m') by ring] at total

/-! ### Other operations -/

theorem isFormed_ofInterval (kind : i.IsOf k) : (ofInterval i).IsFormed k P :=
  ⟨kind, by simp [ofInterval], by simp [ofInterval], by simp [ofInterval]⟩

theorem takes_ofInterval : (ofInterval i).Takes x v ↔ i.Has v := by
  constructor
  · rintro ⟨m, _, sum⟩
    have same : v - m = 0 := sumsTo_nil.1 sum
    rwa [sub_eq_zero.1 same]
  · intro h
    exact ⟨v, h, sumsTo_nil.2 (sub_self v)⟩

theorem isFormed_ofDimension (k : Kind) (inside : P d) : (ofDimension k d).IsFormed k P where
  constant := isOf_zero k
  terms := by
    simp only [ofDimension, mem_singleton, forall_eq]
    exact isOf_one k
  sorted := by simp [ofDimension]
  dims := by simp [ofDimension, inside]

theorem takes_ofDimension (outward : k.IsOutward) : (ofDimension k d).Takes x (x.getD d 0) := by
  refine ⟨0, ⟨le_rfl, le_rfl⟩, sumsTo_ranges_cons.2 ⟨1, ⟨outward.unit.le, outward.unit.ge⟩, ?_⟩⟩
  simp [ranges]

section

variable (formed : a.IsFormed k P)
include formed

theorem IsFormed.map {l : Kind} (keeps : ∀ i : Interval, i.IsOf k → (f i).IsOf l) :
    (a.map f).IsFormed l P where
  constant := keeps _ formed.constant
  terms := forall_mem_map.2 fun e mem => keeps _ (formed.terms e mem)
  sorted := pairwise_map.2 formed.sorted
  dims := forall_mem_map.2 formed.dims

theorem Takes.map (image : ∀ i : Interval, i.IsOf k → ∀ m, i.Has m → (f i).Has (m * q))
    (h : a.Takes x v) : (a.map f).Takes x (v * q) := by
  have sums {ts : List (Nat × Interval)} (kinds : ∀ e ∈ ts, e.2.IsOf k) {v : Rat}
      (sum : SumsTo x (ranges ts) v) :
      SumsTo x (ranges (ts.map fun e => (e.1, f e.2))) (v * q) := by
    induction ts generalizing v with
    | nil =>
      rw [sumsTo_nil.1 sum, zero_mul]
      exact .nil
    | cons e ts ih =>
      obtain ⟨d, i⟩ := e
      obtain ⟨m, hm, others⟩ := sumsTo_ranges_cons.1 sum
      refine sumsTo_ranges_cons.2 ⟨m * q, image i (kinds (d, i) (by simp)) m hm, ?_⟩
      have rest := ih (fun e mem => kinds e (by simp [mem])) others
      rwa [show v * q - m * q * x.getD d 0 = (v - m * x.getD d 0) * q by ring]
  obtain ⟨m, hm, sum⟩ := h
  refine ⟨m * q, image _ formed.constant m hm, ?_⟩
  rw [← sub_mul]
  exact sums formed.terms sum

theorem IsFormed.neg : a.neg.IsFormed k P :=
  formed.map fun _ kind => kind.neg

theorem Takes.neg (h : a.Takes x v) : a.neg.Takes x (-v) := by
  rw [← mul_neg_one]
  refine h.map formed fun i _ m hm => ?_
  rw [mul_neg_one]
  exact has_neg.2 (by rwa [neg_neg])

theorem IsFormed.scale (kind : i.IsOf k) : (a.scale i).IsFormed k P :=
  formed.map fun _ kind' => kind'.mul kind

end

theorem Takes.scale (directed : k ≠ .double) (formed : a.IsFormed k P) (h : a.Takes x v)
    (hi : i.Has q) : (a.scale i).Takes x (v * q) :=
  h.map formed fun _ kind _ hm => .mul (kind.lo_ne directed) (kind.hi_ne directed) hm hi

theorem IsFormed.convert (formed : a.IsFormed k P) (l : Kind) :
    (a.map (·.convert l)).IsFormed l P :=
  formed.map fun _ kind => kind.isOf_convert l

theorem Takes.convert {l : Kind} (directed : l ≠ .double) (formed : a.IsFormed k P)
    (h : a.Takes x v) : (a.map (·.convert l)).Takes x v := by
  rw [← mul_one v]
  refine h.map formed fun _ _ m hm => ?_
  rw [mul_one]
  exact hm.convert directed

theorem Takes.has_of_isConstant (constant : a.isConstant = true) (h : a.Takes x v) :
    a.constant.Has v := by
  obtain ⟨m, _, sum⟩ := h
  have zeros : (ranges a.terms).filter (!·.2.isZero) = [] := by
    rw [filter_eq_nil_iff, ranges, forall_mem_map]
    intro e mem
    have zero : e.2.isZero = true := all_eq_true.1 constant e mem
    simp [Coefficient.isZero, zero]
  rw [← sumsTo_filter, zeros, sumsTo_nil, sub_eq_zero] at sum
  rwa [sum]

private theorem eval_run (ts : List (Nat × Interval)) (acc : Interval) (outward : k.IsOutward)
    (kind : acc.IsOf k) (kinds : ∀ e ∈ ts, e.2.IsOf k) (inside : ∀ e ∈ ts, e.1 < bounds.length)
    (valid : ∀ i ∈ bounds, i.Valid) :
    ∃ i, ts.foldlM (fun acc (e : Nat × Interval) => do
        return acc.add (e.2.mul (← boundAt bounds k e.1))) acc = .ok i ∧
      i.IsOf k ∧ ∀ x, InBox bounds x → ∀ u v, SumsTo x (ranges ts) u → acc.Has v →
        i.Has (u + v) := by
  have directed := outward.directed
  induction ts generalizing acc with
  | nil =>
    refine ⟨acc, rfl, kind, fun x _ u v sum has => ?_⟩
    rwa [sumsTo_nil.1 sum, zero_add]
  | cons e ts ih =>
    obtain ⟨d, j⟩ := e
    have within : d < bounds.length := inside (d, j) (by simp)
    have factor := kinds (d, j) (by simp)
    have range := (valid _ (getElem_mem within)).isOf_convert k
    obtain ⟨i, run, isOf, values⟩ := ih _ (kind.add (factor.mul range))
      (fun e mem => kinds e (by simp [mem])) fun e mem => inside e (by simp [mem])
    refine ⟨i, ?_, isOf, fun x box u v sum has => ?_⟩
    · rwa [foldlM_cons, LinearForm.boundAt_eq outward within]
    · obtain ⟨m, hm, others⟩ := sumsTo_ranges_cons.1 sum
      have bound : (bounds[d].convert k).Has (x.getD d 0) :=
        .convert directed (box d _ (getElem?_eq_getElem within))
      have product : (j.mul (bounds[d].convert k)).Has (m * x.getD d 0) :=
        .mul (factor.lo_ne directed) (factor.hi_ne directed) hm bound
      -- the product has gone from the terms to the accumulator
      have total := values x box _ (v + m * x.getD d 0) others
        (.add (kind.lo_ne directed) (kind.hi_ne directed) has product)
      rwa [show u - m * x.getD d 0 + (v + m * x.getD d 0) = u + v by ring] at total

theorem eval_spec (outward : k.IsOutward) (formed : a.IsFormed k P)
    (inside : ∀ d, P d → d < bounds.length) (valid : ∀ i ∈ bounds, i.Valid) :
    ∃ i, a.eval bounds k = .ok i ∧ i.IsOf k ∧
      ∀ x, InBox bounds x → ∀ v, a.Takes x v → i.Has v := by
  obtain ⟨i, run, kind, values⟩ :=
    eval_run a.terms a.constant outward formed.constant formed.terms
      (fun e mem => inside e.1 (formed.dims e mem)) valid
  refine ⟨i, run, kind, fun x box v takes => ?_⟩
  obtain ⟨m, hm, sum⟩ := takes
  have total := values x box _ _ sum hm
  rwa [sub_add_cancel] at total

/-! ### Linear forms -/

theorem takes_toLinearForm : a.toLinearForm.Takes x v ↔ a.Takes x v := by
  have member {i : Interval} {m : Rat} : (range i).reduce.Has m ↔ i.Has m :=
    spans_reduce
  have sums {ts : List (Nat × Interval)} {v : Rat} :
      SumsTo x (ts.map fun e => (e.1, (range e.2).reduce)) v ↔
        SumsTo x (ranges ts) v := by
    induction ts generalizing v with
    | nil => rfl
    | cons e ts ih =>
      obtain ⟨d, i⟩ := e
      simp only [map_cons, sumsTo_cons, sumsTo_ranges_cons, ih, member]
  exact exists_congr fun m => and_congr member sums

theorem valid_toLinearForm (formed : a.IsFormed k P) : a.toLinearForm.Valid where
  nodup := by
    change ((a.terms.map fun e => (e.1, (range e.2).reduce)).map Prod.fst).Nodup
    rw [map_map, Nodup, pairwise_map]
    exact formed.sorted.imp fun less => less.ne
  coefficients := forall_mem_map.2 fun e mem =>
    valid_reduce_range (formed.terms e mem).toValid
  constant := valid_reduce_range formed.constant.toValid

theorem dims_toLinearForm (formed : a.IsFormed k P) : ∀ e ∈ a.toLinearForm.entries, P e.1 :=
  forall_mem_map.2 formed.dims

end Affine

end Enclosure
