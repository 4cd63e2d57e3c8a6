import Enclosure.Proofs.IntervalKinds
import Enclosure.Proofs.Vectors
import Mathlib.Data.List.GetD

/-!
# Values of linear forms

A coefficient stands for its rational members, so a linear form takes many values at a point: one
for each choice of members.
-/

namespace Enclosure

open List Interval

namespace Coefficient

variable {c : Coefficient} {x : Number} {i : Interval} {k : Kind} {q : Rat} {v : ExtRat} {p : Rat}

def Spans (c : Coefficient) (v : ExtRat) : Prop := c.toInterval.Spans v

def Has (c : Coefficient) (q : Rat) : Prop := c.toInterval.Has q

def Valid : Coefficient → Prop
  | exact _ => True
  | range i => i.Valid

theorem spans_exact : (exact x).Spans v ↔ x.value = v :=
  ⟨fun h => le_antisymm h.1 h.2, fun h => ⟨h.le, h.ge⟩⟩

theorem has_exact : (exact x).Has q ↔ x.value = .fin q := spans_exact

@[simp]
theorem has_rational : (rational p).Has q ↔ q = p := by
  rw [rational, has_exact, Number.rational, ExtRat.fin.injEq, eq_comm]

theorem Spans.toIntervalOf (directed : k ≠ .double) (h : c.Spans v) :
    (c.toIntervalOf k).Spans v := by
  cases c with
  | exact x =>
    exact ⟨(Number.convert_down_le directed x).trans h.1,
      h.2.trans (Number.le_convert_up directed x)⟩
  | range i => exact .convert directed h

theorem has_toIntervalOf_rational : (c.toIntervalOf .rational).Has q ↔ c.Has q := by
  cases c with
  | exact x => simp [toIntervalOf, Interval.Has, Interval.Spans, Number.value_convert_rational,
      has_exact, le_antisymm_iff]
  | range i => exact has_convert_rational

theorem Valid.isOf_toIntervalOf (directed : k ≠ .double) (valid : c.Valid) :
    (c.toIntervalOf k).IsOf k := by
  cases c with
  | exact x =>
    exact isOf_of_kinds directed (Number.kind_convert _ _ _) (Number.kind_convert _ _ _)
  | range i => exact Valid.isOf_convert valid k

def Fits (c : Coefficient) : Prop := c.toInterval.Fits c.kind

def FitsIn (k : Kind) (c : Coefficient) : Prop := (c.toIntervalOf k).Fits k

theorem Fits.fitsIn (h : c.Fits) (k : Kind) : c.FitsIn k := by
  cases c with
  | exact x => exact ⟨h.lo.convert k _, h.hi.convert k _⟩
  | range i => exact .convert h k

theorem Valid.fitsIn_rational (valid : c.Valid) : c.FitsIn .rational :=
  (isOf_rational_iff.1 (valid.isOf_toIntervalOf (by simp))).fits

theorem checkedIntervalOf_eq (outward : k.IsOutward) :
    c.checkedIntervalOf k = .ok (c.toIntervalOf k) := by
  rw [checkedIntervalOf, outward.require_eq]
  rfl

theorem spans_reduce : c.reduce.Spans v ↔ c.Spans v := by
  cases c with
  | exact x => rfl
  | range i =>
    rw [reduce]
    split
    · rename_i point
      obtain ⟨q, lo, hi⟩ := exists_of_isPoint point
      simp [Spans, toInterval, Interval.Spans, Interval.point, lo, hi]
    · rfl

theorem valid_reduce_range (valid : i.Valid) : (range i).reduce.Valid := by
  rw [reduce]
  split
  · trivial
  · exact valid

theorem rational?_reduce_range (exact : (range i).reduce.isExact = true) :
    (range i).reduce.rational? ≠ none := by
  rw [reduce] at exact ⊢
  split
  · rename_i point
    obtain ⟨q, value, -⟩ := exists_of_isPoint point
    simp [rational?, number?, value, ExtRat.fin?]
  · rename_i several
    simp [several, isExact] at exact

theorem has_neg : c.neg.Has q ↔ c.Has (-q) := by
  cases c with
  | exact x => exact has_neg (i := .point x)
  | range i => exact has_neg

theorem isZero_neg : c.neg.isZero = c.isZero := by
  cases c with
  | exact x => exact Number.isZero_neg x
  | range i =>
    change (i.hi.neg.isZero && i.lo.neg.isZero) = (i.lo.isZero && i.hi.isZero)
    rw [Number.isZero_neg, Number.isZero_neg, Bool.and_comm]

theorem Valid.neg (valid : c.Valid) : c.neg.Valid := by
  cases c with
  | exact x => trivial
  | range i => exact .neg valid

theorem isZero_reduce : c.reduce.isZero = c.isZero := by
  cases c with
  | exact x => rfl
  | range i =>
    rw [reduce]
    split
    · rename_i point
      obtain ⟨q, lo, hi⟩ := exists_of_isPoint point
      simp [isZero, Interval.isZero, Number.isZero, lo, hi]
    · rfl

theorem spans_of_isZero (zero : c.isZero = true) : c.Spans v ↔ v = .fin 0 := by
  cases c with
  | exact x =>
    have single : (point x).isZero = true := Bool.and_eq_true_iff.2 ⟨zero, zero⟩
    exact spans_of_isZero single
  | range i => exact spans_of_isZero zero

theorem has_of_isZero (zero : c.isZero = true) : c.Has q ↔ q = 0 :=
  (spans_of_isZero zero).trans (by rw [ExtRat.fin.injEq])

theorem Has.rational?_ne_none (h : c.Has q) (number : c.isExact = true) : c.rational? ≠ none := by
  cases c with
  | exact x => simp [rational?, number?, has_exact.1 h, ExtRat.fin?]
  | range i => cases number

theorem rational?_exact (value : x.value = .fin p) : (exact x).rational? = some p := by
  simp [rational?, number?, value, ExtRat.fin?]

theorem value_of_rational? (h : (exact x).rational? = some p) : x.value = .fin p := by
  cases hv : x.value <;> simp_all [rational?, number?, ExtRat.fin?]

theorem spans_of_rational? (h : c.rational? = some p) : c.Spans v ↔ v = .fin p := by
  cases c with
  | exact x => rw [spans_exact, value_of_rational? h, eq_comm]
  | range i => simp [rational?, number?] at h

theorem has_of_rational? (h : c.rational? = some p) : c.Has q ↔ q = p :=
  (spans_of_rational? h).trans (by rw [ExtRat.fin.injEq])

theorem isZero_of_rational? (h : c.rational? = some p) : c.isZero = true ↔ p = 0 := by
  cases c with
  | exact x =>
    change x.value.isZero = true ↔ p = 0
    rw [ExtRat.isZero_iff, value_of_rational? h, ExtRat.fin.injEq]
  | range i => simp [rational?, number?] at h

end Coefficient

/-! ### Sums of terms -/

namespace Terms

variable {x : List Rat} {es fs : List (Nat × Coefficient)} {v : Rat} {d : Nat} {c : Coefficient}

/-- The value is the sum of the terms at a point, for some choice of members of the
coefficients. -/
inductive SumsTo (x : List Rat) : List (Nat × Coefficient) → Rat → Prop
  | nil : SumsTo x [] 0
  | cons {d c q es v} : c.Has q → SumsTo x es v → SumsTo x ((d, c) :: es) (q * x.getD d 0 + v)

@[simp]
theorem sumsTo_nil : SumsTo x [] v ↔ v = 0 :=
  ⟨fun h => by cases h; rfl, fun h => h ▸ .nil⟩

theorem sumsTo_cons :
    SumsTo x ((d, c) :: es) v ↔ ∃ q, c.Has q ∧ SumsTo x es (v - q * x.getD d 0) := by
  constructor
  · intro h
    cases h with
    | cons has rest => exact ⟨_, has, by simpa using rest⟩
  · rintro ⟨q, has, rest⟩
    simpa using SumsTo.cons (d := d) has rest

theorem SumsTo.exists_has (h : SumsTo x es v) : ∀ e ∈ es, ∃ q, e.2.Has q := by
  induction h with
  | nil => simp
  | cons has _ ih => exact forall_mem_cons.2 ⟨⟨_, has⟩, ih⟩

theorem SumsTo.perm (h : SumsTo x es v) (perm : es.Perm fs) : SumsTo x fs v := by
  induction perm generalizing v with
  | nil => exact h
  | cons e _ ih =>
    obtain ⟨q, has, rest⟩ := sumsTo_cons.1 h
    exact sumsTo_cons.2 ⟨q, has, ih rest⟩
  | swap e f _ =>
    obtain ⟨q, has, rest⟩ := sumsTo_cons.1 h
    obtain ⟨q', has', _⟩ := sumsTo_cons.1 rest
    refine sumsTo_cons.2 ⟨q', has', sumsTo_cons.2 ⟨q, has, ?_⟩⟩
    rwa [sub_right_comm]
  | trans _ _ ih ih' => exact ih' (ih h)

theorem sumsTo_filter : SumsTo x (es.filter (!·.2.isZero)) v ↔ SumsTo x es v := by
  induction es generalizing v with
  | nil => simp
  | cons e es ih =>
    obtain ⟨d, c⟩ := e
    by_cases zero : c.isZero = true
    · rw [filter_cons_of_neg (by simp [zero]), ih, sumsTo_cons]
      constructor
      · exact fun h => ⟨0, (Coefficient.has_of_isZero zero).2 rfl, by simpa using h⟩
      · rintro ⟨q, has, h⟩
        rw [(Coefficient.has_of_isZero zero).1 has] at h
        simpa using h
    · rw [filter_cons_of_pos (by simp [zero])]
      simp only [sumsTo_cons, ih]

theorem sumsTo_neg : SumsTo x (es.map fun e => (e.1, e.2.neg)) v ↔ SumsTo x es (-v) := by
  induction es generalizing v with
  | nil => simp
  | cons e es ih =>
    obtain ⟨d, c⟩ := e
    simp only [map_cons, sumsTo_cons, ih, Coefficient.has_neg]
    constructor
    · rintro ⟨q, has, _⟩
      exact ⟨-q, has, by rwa [show -v - -q * x.getD d 0 = -(v - q * x.getD d 0) by ring]⟩
    · rintro ⟨q, _, _⟩
      exact ⟨-q, by rwa [neg_neg], by
        rwa [show -(v - -q * x.getD d 0) = -v - q * x.getD d 0 by ring]⟩

theorem SumsTo.congr {y : List Rat} (h : SumsTo x es v)
    (same : ∀ e ∈ es, e.2.isZero = false → x.getD e.1 0 = y.getD e.1 0) : SumsTo y es v := by
  induction h with
  | nil => exact .nil
  | @cons d c q es v has _ ih =>
    have ih := ih fun e mem => same e (by simp [mem])
    have term : q * x.getD d 0 = q * y.getD d 0 := by
      cases zero : c.isZero with
      | true => rw [(Coefficient.has_of_isZero zero).1 has, zero_mul, zero_mul]
      | false => rw [same (d, c) (by simp) zero]
    exact term ▸ .cons has ih

/-! ### Sums with infinite coefficients -/

/-- The value is the sum of the terms at a point, for some choice of members of the
coefficients, infinities among them. -/
inductive Reaches (x : List Rat) : List (Nat × Coefficient) → ExtRat → Prop
  | nil : Reaches x [] (.fin 0)
  | cons {d c q es v} : c.Spans q → Reaches x es v →
      Reaches x ((d, c) :: es) (q.mul (.fin (x.getD d 0)) + v)

variable {r t : ExtRat}

@[simp]
theorem reaches_nil : Reaches x [] r ↔ r = .fin 0 :=
  ⟨fun h => by cases h; rfl, fun h => h ▸ .nil⟩

theorem reaches_cons : Reaches x ((d, c) :: es) r ↔
    ∃ q t, c.Spans q ∧ Reaches x es t ∧ q.mul (.fin (x.getD d 0)) + t = r := by
  constructor
  · intro h
    cases h with
    | cons spans rest => exact ⟨_, _, spans, rest, rfl⟩
  · rintro ⟨q, t, spans, rest, rfl⟩
    exact .cons spans rest

theorem reaches_concat : Reaches x (es ++ [(d, c)]) r ↔
    ∃ t q, Reaches x es t ∧ c.Spans q ∧ t + q.mul (.fin (x.getD d 0)) = r := by
  induction es generalizing r with
  | nil =>
    rw [nil_append, reaches_cons]
    simp [add_comm]
  | cons e es ih =>
    obtain ⟨_, -⟩ := e
    simp only [cons_append, reaches_cons, ih]
    constructor
    · rintro ⟨p, _, first, ⟨t, q, rest, last, rfl⟩, rfl⟩
      exact ⟨_, q, ⟨p, t, first, rest, rfl⟩, last, add_assoc _ _ _⟩
    · rintro ⟨_, q, ⟨p, t, first, rest, rfl⟩, last, rfl⟩
      exact ⟨p, _, first, ⟨t, q, rest, last, rfl⟩, (add_assoc _ _ _).symm⟩

theorem reaches_filter : Reaches x (es.filter (!·.2.isZero)) r ↔ Reaches x es r := by
  induction es generalizing r with
  | nil => simp
  | cons e es ih =>
    obtain ⟨d, c⟩ := e
    by_cases zero : c.isZero = true
    · rw [filter_cons_of_neg (by simp [zero]), ih, reaches_cons]
      constructor
      · refine fun h => ⟨.fin 0, r, (Coefficient.spans_of_isZero zero).2 rfl, h, ?_⟩
        rw [ExtRat.zero_mul, ExtRat.fin_zero_add]
      · rintro ⟨q, t, spans, h, rfl⟩
        rwa [(Coefficient.spans_of_isZero zero).1 spans, ExtRat.zero_mul, ExtRat.fin_zero_add]
    · rw [filter_cons_of_pos (by simp [zero])]
      simp only [reaches_cons, ih]

theorem SumsTo.reaches (h : SumsTo x es v) : Reaches x es (.fin v) := by
  induction h with
  | nil => exact .nil
  | cons has _ ih => exact .cons has ih

theorem Reaches.sumsTo (h : Reaches x es r) (finite : ∀ e ∈ es, e.2.rational? ≠ none) :
    ∃ v, r = .fin v ∧ SumsTo x es v := by
  induction h with
  | nil => exact ⟨0, rfl, .nil⟩
  | @cons d c q es t spans _ ih =>
    obtain ⟨v, rfl, sum⟩ := ih fun e mem => finite e (by simp [mem])
    obtain ⟨p, number⟩ := Option.ne_none_iff_exists'.1 (finite (d, c) (by simp))
    rw [Coefficient.spans_of_rational? number] at spans
    subst spans
    exact ⟨_, rfl, .cons ((Coefficient.has_of_rational? number).2 rfl) sum⟩

variable {ts : List (Nat × Rat)}

theorem mapM_rational_iff : es.mapM (fun e => e.2.rational?.map (e.1, ·)) = some ts ↔
    es.map (fun e => (e.1, e.2.rational?)) = ts.map fun t => (t.1, some t.2) := by
  induction es generalizing ts with
  | nil => cases ts <;> simp
  | cons e es ih =>
    cases number : e.2.rational? <;> cases ts <;>
      simp [number, Option.bind_eq_some_iff, ih, Prod.ext_iff, and_comm]

theorem sumsTo_of_rational?
    (weights : es.map (fun e => (e.1, e.2.rational?)) = ts.map fun t => (t.1, some t.2)) :
    SumsTo x es v ↔ v = sumAt ts x := by
  induction es generalizing ts v with
  | nil =>
    obtain rfl : ts = [] := map_eq_nil_iff.1 weights.symm
    simp
  | cons e es ih =>
    obtain ⟨t, _, rfl, first, rest⟩ := map_eq_cons_iff.1 weights.symm
    obtain ⟨dim, number⟩ : t.1 = e.1 ∧ some t.2 = e.2.rational? := Prod.mk.inj first
    rw [sumsTo_cons, sumAt_cons, dim]
    simp only [Coefficient.has_of_rational? number.symm, exists_eq_left, ih rest.symm,
      sub_eq_iff_eq_add']

theorem Reaches.eq_sumAt
    (weights : es.map (fun e => (e.1, e.2.rational?)) = ts.map fun t => (t.1, some t.2))
    (h : Reaches x es r) : r = .fin (sumAt ts x) := by
  obtain ⟨v, rfl, sum⟩ := h.sumsTo fun e mem none => by
    obtain ⟨t, -, number⟩ := mem_map.1 (weights ▸ mem_map_of_mem mem)
    simp [none] at number
  rw [(sumsTo_of_rational? weights).1 sum]

theorem exists_reaches (inhabited : ∀ e ∈ es, e.2.toInterval.isEmpty = false) :
    ∃ r, Reaches x es r := by
  induction es with
  | nil => exact ⟨.fin 0, .nil⟩
  | cons e es ih =>
    obtain ⟨q, spans⟩ := exists_spans (inhabited e (by simp))
    obtain ⟨r, rest⟩ := ih fun e mem => inhabited e (by simp [mem])
    exact ⟨_, .cons spans rest⟩

end Terms

/-! ### Values of forms -/

def InBox (bounds : List Interval) (x : List Rat) : Prop :=
  ∀ (d : Nat) (i : Interval), bounds[d]? = some i → i.Has (x.getD d 0)

@[simp]
theorem inBox_nil {x : List Rat} : InBox [] x := by simp [InBox]

@[simp]
theorem inBox_cons {i : Interval} {bounds : List Interval} {q : Rat} {x : List Rat} :
    InBox (i :: bounds) (q :: x) ↔ i.Has q ∧ InBox bounds x := by
  constructor
  · intro h
    exact ⟨h 0 i rfl, fun d j found => h (d + 1) j found⟩
  · rintro ⟨first, rest⟩ d j found
    cases d with
    | zero => exact Option.some.inj found ▸ first
    | succ d => exact rest d j found

namespace LinearForm

open Terms (SumsTo)

variable {f g : LinearForm} {x : List Rat} {v : Rat} {r : ExtRat} {bounds : List Interval}

/-- The value is that of the form at a point, for some choice of members of the coefficients
and of the constant. -/
def Takes (f : LinearForm) (x : List Rat) (v : Rat) : Prop :=
  ∃ k, f.constant.Has k ∧ SumsTo x f.entries (v - k)

/-- The value is that of the form at a point, for some choice of members of the coefficients
and of the constant, infinities among them. -/
def Reaches (f : LinearForm) (x : List Rat) (r : ExtRat) : Prop :=
  ∃ k t, f.constant.Spans k ∧ Terms.Reaches x f.entries t ∧ t + k = r

structure Valid (f : LinearForm) : Prop where
  nodup : (f.entries.map Prod.fst).Nodup
  coefficients : ∀ e ∈ f.entries, e.2.Valid
  constant : f.constant.Valid

def Below (f : LinearForm) (n : Nat) : Prop := ∀ e ∈ f.nonzero, e.1 < n

theorem mem_nonzero {e : Nat × Coefficient} :
    e ∈ f.nonzero ↔ e ∈ f.entries ∧ e.2.isZero = false := by
  simp [nonzero]

theorem takes_iff_nonzero : f.Takes x v ↔ ∃ k, f.constant.Has k ∧ SumsTo x f.nonzero (v - k) := by
  simp only [Takes, nonzero, Terms.sumsTo_filter]

theorem reaches_iff_nonzero : f.Reaches x r ↔
    ∃ k t, f.constant.Spans k ∧ Terms.Reaches x f.nonzero t ∧ t + k = r := by
  simp only [Reaches, nonzero, Terms.reaches_filter]

theorem Takes.reaches (h : f.Takes x v) : f.Reaches x (.fin v) := by
  obtain ⟨k, has, sum⟩ := h
  refine ⟨.fin k, .fin (v - k), has, sum.reaches, ?_⟩
  rw [ExtRat.fin_add_fin, sub_add_cancel]

theorem Reaches.takes (h : f.Reaches x (.fin v)) (finite : ∀ e ∈ f.entries, e.2.rational? ≠ none) :
    f.Takes x v := by
  obtain ⟨k, t, spans, sum, total⟩ := h
  obtain ⟨u, rfl, sum⟩ := sum.sumsTo finite
  cases k with
  | fin k =>
    rw [ExtRat.fin_add_fin, ExtRat.fin.injEq] at total
    exact ⟨k, spans, by rwa [← total, add_sub_cancel_right]⟩
  | _ => simp [ExtRat.add_eq, ExtRat.add?] at total

theorem Takes.congr {y : List Rat} {n : Nat} (h : f.Takes x v) (below : f.Below n)
    (same : ∀ d < n, x.getD d 0 = y.getD d 0) : f.Takes y v := by
  obtain ⟨k, has, sum⟩ := h
  refine ⟨k, has, sum.congr fun e mem nonzero => same e.1 (below e ?_)⟩
  exact mem_nonzero.2 ⟨mem, nonzero⟩

theorem entries_neg : f.neg.entries = f.entries.map fun e => (e.1, e.2.neg) := by
  unfold neg entries
  cases f.terms with
  | dense cs => simp [Terms.entries, zipIdx_map]
  | sparse es => rfl

theorem Valid.neg (valid : f.Valid) : f.neg.Valid := by
  refine ⟨?_, ?_, valid.constant.neg⟩
  · rw [entries_neg, map_map]
    exact valid.nodup
  · rw [entries_neg, forall_mem_map]
    exact fun e mem => (valid.coefficients e mem).neg

theorem Below.neg {n : Nat} (below : f.Below n) : f.neg.Below n := by
  intro e mem
  rw [mem_nonzero, entries_neg, mem_map] at mem
  obtain ⟨⟨g, inEntries, rfl⟩, nonzero⟩ := mem
  rw [Coefficient.isZero_neg] at nonzero
  exact below g (mem_nonzero.2 ⟨inEntries, nonzero⟩)

theorem takes_neg : f.neg.Takes x v ↔ f.Takes x (-v) := by
  have constant : f.neg.constant = f.constant.neg := rfl
  simp only [Takes, entries_neg, constant, Coefficient.has_neg, Terms.sumsTo_neg]
  constructor
  · rintro ⟨k, has, _⟩
    exact ⟨-k, has, by rwa [show -v - -k = -(v - k) by ring]⟩
  · rintro ⟨k, _, _⟩
    exact ⟨-k, by rwa [neg_neg], by rwa [show -(v - -k) = -v - k by ring]⟩

/-! ### Replacing ranges by numbers -/

theorem boundAt_eq {k : Kind} {d : Nat} (outward : k.IsOutward) (inside : d < bounds.length) :
    boundAt bounds k d = .ok (bounds[d].convert k) := by
  simp only [boundAt, fetch, getElem?_eq_getElem inside, convertTo, outward.require_eq]
  rfl

private structure Spread (k : Kind) (bounds : List Interval) (start : Interval)
    (done : List (Nat × Coefficient)) (state : List (Nat × Coefficient) × Interval) : Prop where
  dims : state.1.map Prod.fst = done.map Prod.fst
  exact : ∀ e ∈ state.1, e.2.isExact = true
  finite : (∀ e ∈ done, e.2.isExact = true → e.2.rational? ≠ none) →
    ∀ e ∈ state.1, e.2.rational? ≠ none
  below : ∀ e ∈ state.1, e.2.isZero = false → e.1 < bounds.length
  kind : state.2.IsOf k
  values : ∀ x, InBox bounds x → ∀ t c, Terms.Reaches x done t → start.Spans c →
    ∃ w m, Terms.Reaches x state.1 w ∧ state.2.Spans m ∧ w + m = t + c

variable {k : Kind} {start : Interval} {done : List (Nat × Coefficient)}
  {state : List (Nat × Coefficient) × Interval} {term : Nat × Coefficient}

private theorem Spread.keep (h : Spread k bounds start done state)
    (exact : term.2.reduce.isExact = true)
    (inside : term.2.isZero = false → term.1 < bounds.length) :
    Spread k bounds start (done ++ [term]) (state.1 ++ [(term.1, term.2.reduce)], state.2) where
  dims := by simp [h.dims]
  exact e mem := by
    rcases mem_append.1 mem with old | new
    · exact h.exact e old
    · rwa [mem_singleton.1 new]
  finite numbers e mem := by
    rcases mem_append.1 mem with old | new
    · exact h.finite (fun e old => numbers e (by simp [old])) e old
    · obtain ⟨d, c⟩ := term
      rw [mem_singleton.1 new]
      cases c with
      | exact y => exact numbers (d, .exact y) (by simp) rfl
      | range i => exact Coefficient.rational?_reduce_range exact
  below e mem nonzero := by
    rcases mem_append.1 mem with old | new
    · exact h.below e old nonzero
    · rw [mem_singleton.1 new] at nonzero ⊢
      exact inside (by simpa [Coefficient.isZero_reduce] using nonzero)
  kind := h.kind
  values x box t c sum hc := by
    -- the new term is added on both sides
    obtain ⟨u, q, sumDone, spans, rfl⟩ := Terms.reaches_concat.1 sum
    obtain ⟨w, m, sumState, constant, same⟩ := h.values x box u c sumDone hc
    refine ⟨_, m, Terms.reaches_concat.2 ⟨w, q, sumState, ?_, rfl⟩, constant, ?_⟩
    · exact Coefficient.spans_reduce.2 spans
    · rw [add_right_comm, same, add_right_comm]

private theorem Spread.replace {d : Nat} {i : Interval} (outward : k.IsOutward)
    (h : Spread k bounds start done state) (valid : i.Valid) (inside : d < bounds.length)
    (ranges : ∀ j ∈ bounds, j.Valid) :
    Spread k bounds start (done ++ [(d, .range i)])
      (state.1 ++ [(d, .exact (weight i))],
        state.2.add (((i.sub (.point (weight i))).convert k).mul (bounds[d].convert k))) where
  dims := by simp [h.dims]
  exact e mem := by
    rcases mem_append.1 mem with old | new
    · exact h.exact e old
    · rw [mem_singleton.1 new]
      rfl
  finite numbers e mem := by
    rcases mem_append.1 mem with old | new
    · exact h.finite (fun e old => numbers e (by simp [old])) e old
    · obtain ⟨p, value⟩ := exists_weight i
      rw [mem_singleton.1 new]
      simp [Coefficient.rational?, Coefficient.number?, value, ExtRat.fin?]
  below e mem nonzero := by
    rcases mem_append.1 mem with old | new
    · exact h.below e old nonzero
    · rwa [mem_singleton.1 new]
  kind := h.kind.add ((isOf_convert_sub_weight valid k).mul
    ((ranges _ (getElem_mem inside)).isOf_convert k))
  values x box t c sum hc := by
    obtain ⟨u, q, sumDone, spans, rfl⟩ := Terms.reaches_concat.1 sum
    obtain ⟨w, m, sumState, constant, same⟩ := h.values x box u c sumDone hc
    -- `q` is `p` plus a member of the range moved by `p`, which goes to the constant
    obtain ⟨p, weight⟩ := exists_weight i
    have left := (spans_sub_weight valid spans weight).convert outward.directed
    have kind := isOf_convert_sub_weight valid k
    have bound : (bounds[d].convert k).Spans (.fin (x.getD d 0)) :=
      .convert outward.directed (box d _ (getElem?_eq_getElem inside))
    have product := left.mul (kind.lo_ne outward.directed) (kind.hi_ne outward.directed) bound
    have total := constant.add (h.kind.lo_ne outward.directed) (h.kind.hi_ne outward.directed)
      product
    refine ⟨_, _, Terms.reaches_concat.2 ⟨w, .fin p, sumState, ?_, rfl⟩, total, ?_⟩
    · exact Coefficient.spans_exact.2 weight
    · calc w + .fin (p * x.getD d 0) + (m + (q + .fin (-p)).mul (.fin (x.getD d 0)))
          = w + m + (.fin (p * x.getD d 0) + (q + .fin (-p)).mul (.fin (x.getD d 0))) :=
            add_add_add_comm _ _ _ _
        _ = u + c + q.mul (.fin (x.getD d 0)) := by rw [same, ← ExtRat.mul_fin_eq_add]
        _ = u + q.mul (.fin (x.getD d 0)) + c := add_right_comm _ _ _

private theorem spreadStep_spec (outward : k.IsOutward) (h : Spread k bounds start done state)
    (valid : term.2.Valid) (inside : term.2.isZero = false → term.1 < bounds.length)
    (ranges : ∀ j ∈ bounds, j.Valid) :
    ∃ next, spreadStep bounds k state term = .ok next ∧
      Spread k bounds start (done ++ [term]) next := by
  obtain ⟨d, c⟩ := term
  cases c with
  | exact y => exact ⟨_, rfl, h.keep rfl inside⟩
  | range i =>
    by_cases point : i.isPoint = true
    · refine ⟨_, by simp [spreadStep, point], h.keep ?_ inside⟩
      simp [Coefficient.reduce, point, Coefficient.isExact]
    · -- a range that is zero is a single number, so this dimension matters
      have within : d < bounds.length := by
        refine inside (Bool.eq_false_iff.2 fun zero => point ?_)
        simp only [Coefficient.isZero, isZero, Number.isZero, Bool.and_eq_true,
          ExtRat.isZero_iff] at zero
        simp [isPoint, Number.same, Number.isInfinite, Number.infinitySign,
          ExtRat.infinitySign, zero.1, zero.2]
      refine ⟨_, ?_, h.replace outward valid within ranges⟩
      simp only [spreadStep, point, boundAt_eq outward within]
      rfl

private theorem spread_run (terms : List (Nat × Coefficient)) (outward : k.IsOutward)
    (h : Spread k bounds start done state) (valid : ∀ e ∈ terms, e.2.Valid)
    (inside : ∀ e ∈ terms, e.2.isZero = false → e.1 < bounds.length)
    (ranges : ∀ j ∈ bounds, j.Valid) :
    ∃ last, terms.foldlM (spreadStep bounds k) state = .ok last ∧
      Spread k bounds start (done ++ terms) last := by
  induction terms generalizing done state with
  | nil => exact ⟨state, rfl, by simpa using h⟩
  | cons term terms ih =>
    obtain ⟨_, step, h⟩ :=
      spreadStep_spec outward h (valid term (by simp)) (inside term (by simp)) ranges
    obtain ⟨last, run, h⟩ := ih h (fun e mem => valid e (by simp [mem]))
      (fun e mem => inside e (by simp [mem]))
    refine ⟨last, ?_, by simpa using h⟩
    rwa [foldlM_cons, step]

theorem quasilinearize_spec (outward : k.IsOutward) (valid : f.Valid)
    (below : f.Below bounds.length) (ranges : ∀ i ∈ bounds, i.Valid) :
    ∃ g, f.quasilinearize bounds k = .ok g ∧ g.Valid ∧
      (∀ e ∈ g.entries, e.2.isExact = true) ∧ g.Below bounds.length ∧
      g.entries.map Prod.fst = f.entries.map Prod.fst ∧
      ((∀ e ∈ f.entries, e.2.isExact = true → e.2.rational? ≠ none) →
        ∀ e ∈ g.entries, e.2.rational? ≠ none) ∧
      ∀ x, InBox bounds x → ∀ r, f.Reaches x r → g.Reaches x r := by
  unfold quasilinearize
  split
  · rename_i quasilinear
    have exact : ∀ e ∈ f.entries, e.2.isExact = true := by simpa [isQuasilinear] using quasilinear
    exact ⟨f, rfl, valid, exact, below, rfl, fun numbers e mem => numbers e mem (exact e mem),
      fun _ _ _ takes => takes⟩
  · -- before the first term, all of the value is in the constant
    have start : Spread k bounds (f.constant.toIntervalOf k) []
        ([], f.constant.toIntervalOf k) := by
      refine ⟨rfl, by simp, by simp, by simp, valid.constant.isOf_toIntervalOf outward.directed, ?_⟩
      intro x _ t c sum spans
      exact ⟨_, c, sum, spans, rfl⟩
    obtain ⟨⟨es, c⟩, run, h⟩ := spread_run f.entries outward start valid.coefficients
      (fun e mem nonzero => below e (mem_nonzero.2 ⟨mem, nonzero⟩)) ranges
    have dims : es.map Prod.fst = f.entries.map Prod.fst := by simpa using h.dims
    refine ⟨⟨(Coefficient.range c).reduce, .sparse es⟩, ?_, ⟨?_, ?_, ?_⟩, h.exact, ?_, dims, ?_, ?_⟩
    · rw [Coefficient.checkedIntervalOf_eq outward]
      change (f.entries.foldlM (spreadStep bounds k) ([], f.constant.toIntervalOf k) >>= _) = _
      rw [run]
      rfl
    · exact dims ▸ valid.nodup
    · intro e mem
      cases number : e.2 with
      | exact y => trivial
      | range i => simpa [number, Coefficient.isExact] using h.exact e mem
    · exact Coefficient.valid_reduce_range h.kind.toValid
    · exact fun e mem => h.below e (mem_nonzero.1 mem).1 (mem_nonzero.1 mem).2
    · exact fun numbers => h.finite (by simpa using numbers)
    · rintro x box _ ⟨u, t, spans, sum, rfl⟩
      obtain ⟨w, m, sumState, constant, same⟩ := h.values x box t u (by simpa using sum)
        (spans.toIntervalOf outward.directed)
      have member : (Coefficient.range c).reduce.Spans m := Coefficient.spans_reduce.2 constant
      exact ⟨m, w, member, sumState, same⟩

/-! ### Evaluation over a box -/

private theorem eval_run (terms : List (Nat × Coefficient)) (acc : Interval)
    (outward : k.IsOutward) (kind : acc.IsOf k) (valid : ∀ e ∈ terms, e.2.Valid)
    (inside : ∀ e ∈ terms, e.1 < bounds.length) (ranges : ∀ i ∈ bounds, i.Valid) :
    ∃ i, terms.foldlM (fun acc (e : Nat × Coefficient) => do
        let b ← boundAt bounds k e.1
        return acc.add ((e.2.toIntervalOf k).mul b)) acc = .ok i ∧ i.IsOf k ∧
      (acc.Fits k → i.Fits k) ∧
      ∀ x, InBox bounds x → ∀ t c, Terms.Reaches x terms t → acc.Spans c → i.Spans (t + c) := by
  induction terms generalizing acc with
  | nil =>
    refine ⟨acc, rfl, kind, id, fun x _ t c sum spans => ?_⟩
    rwa [Terms.reaches_nil.1 sum, ExtRat.fin_zero_add]
  | cons e terms ih =>
    obtain ⟨d, coefficient⟩ := e
    have within : d < bounds.length := inside (d, coefficient) (by simp)
    have factor := (valid (d, coefficient) (by simp)).isOf_toIntervalOf outward.directed
    have range := (ranges _ (getElem_mem within)).isOf_convert k
    have sum := kind.fits_add (factor.mul range)
    obtain ⟨i, run, isOf, fits, values⟩ := ih _ sum.isOf
      (fun e mem => valid e (by simp [mem])) fun e mem => inside e (by simp [mem])
    refine ⟨i, ?_, isOf, fun _ => fits sum, fun x box t c reaches spans => ?_⟩
    · rwa [foldlM_cons, boundAt_eq outward within]
    · obtain ⟨q, u, member, rest, rfl⟩ := Terms.reaches_cons.1 reaches
      have bound : (bounds[d].convert k).Spans (.fin (x.getD d 0)) :=
        .convert outward.directed (box d _ (getElem?_eq_getElem within))
      have product := (member.toIntervalOf outward.directed).mul (factor.lo_ne outward.directed)
        (factor.hi_ne outward.directed) bound
      have next := spans.add (kind.lo_ne outward.directed) (kind.hi_ne outward.directed) product
      -- the product has gone from the terms to the accumulator
      have total := values x box _ _ rest next
      rwa [add_comm c, ← add_assoc, add_comm u] at total

theorem eval_spec (outward : k.IsOutward) (valid : f.Valid) (below : f.Below bounds.length)
    (ranges : ∀ i ∈ bounds, i.Valid) :
    ∃ i, f.eval bounds k = .ok i ∧ i.IsOf k ∧
      (f.constant.FitsIn k → i.Fits k) ∧
      ∀ x, InBox bounds x → ∀ r, f.Reaches x r → i.Spans r := by
  obtain ⟨i, run, kind, fits, values⟩ := eval_run f.nonzero (f.constant.toIntervalOf k) outward
    (valid.constant.isOf_toIntervalOf outward.directed)
    (fun e mem => valid.coefficients e (mem_nonzero.1 mem).1) below ranges
  refine ⟨i, ?_, kind, fits, fun x box r reaches => ?_⟩
  · rwa [eval, Coefficient.checkedIntervalOf_eq outward]
  obtain ⟨c, t, spans, sum, rfl⟩ := reaches_iff_nonzero.1 reaches
  exact values x box t c sum (spans.toIntervalOf outward.directed)

end LinearForm

end Enclosure
