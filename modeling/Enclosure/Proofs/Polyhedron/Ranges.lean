import Enclosure.Proofs.Forms
import Enclosure.Proofs.Polyhedron.Dimensions

/-!
# Ranges of dimensions and forms over polyhedra

The range of a dimension is read off a system with one column, and the range of a form off a system
with a new column that equals its terms.
-/

namespace Enclosure

open List ExtRat Interval Rows Terms

/-- The bounds are the infimum and the supremum of the numbers. -/
structure Interval.IsTightFor (i : Interval) (S : Set Rat) : Prop where
  lo : IsGLB (fin '' S) i.lo.value
  hi : IsLUB (fin '' S) i.hi.value

section Tight

variable {i j : Interval} {S T : Set Rat} {q v w : Rat} {a b : ExtRat}

theorem Interval.IsTightFor.has (h : i.IsTightFor S) (mem : q ∈ S) : i.Has q :=
  ⟨h.lo.1 ⟨q, mem, rfl⟩, h.hi.1 ⟨q, mem, rfl⟩⟩

theorem Interval.isTightFor_of_fills (mem : v ∈ S) (has : ∀ t ∈ S, i.Has t)
    (fills : ∀ t, (t < v → i.lo.value < .fin t) → (v < t → .fin t < i.hi.value) → t ∈ S) :
    i.IsTightFor S := by
  refine ⟨⟨?_, fun m least => ?_⟩, ?_, fun m greatest => ?_⟩
  · rintro _ ⟨t, inS, rfl⟩
    exact (has t inS).1
  · by_contra beyond
    obtain ⟨t, above, below⟩ := exists_fin_between (not_le.1 beyond)
    have less : t < v := fin_lt_fin.1 (below.trans_le (least ⟨v, mem, rfl⟩))
    exact below.not_ge (least ⟨t, fills t (fun _ => above) fun h => absurd h less.asymm, rfl⟩)
  · rintro _ ⟨t, inS, rfl⟩
    exact (has t inS).2
  · by_contra beyond
    obtain ⟨t, above, below⟩ := exists_fin_between (not_le.1 beyond)
    have more : v < t := fin_lt_fin.1 ((greatest ⟨v, mem, rfl⟩).trans_lt above)
    exact above.not_ge (greatest ⟨t, fills t (fun h => absurd h more.asymm) fun _ => below, rfl⟩)

theorem Interval.isTightFor_self (has : i.Has v) : i.IsTightFor {q | i.Has q} := by
  refine isTightFor_of_fills has (fun t inside => inside) fun t low high => ⟨?_, ?_⟩
  · rcases lt_or_ge t v with less | more
    · exact (low less).le
    · exact has.1.trans more
  · rcases lt_or_ge v t with more | less
    · exact (high more).le
    · exact le_trans (fin_le_fin.2 less) has.2

theorem isGLB_add (hS : IsGLB (fin '' S) a) (hT : IsGLB (fin '' T) b) (inS : v ∈ S)
    (inT : w ∈ T) : IsGLB (fin '' Set.image2 (· + ·) S T) (a + b) := by
  refine ⟨?_, fun m least => ?_⟩
  · rintro _ ⟨_, ⟨s, inS, t, inT, rfl⟩, rfl⟩
    exact add_le_add (hS.1 ⟨s, inS, rfl⟩) (hT.1 ⟨t, inT, rfl⟩)
  · have shift (t : Rat) (inT : t ∈ T) : m ≤ a + .fin t := by
      rw [le_add_fin]
      refine hS.2 ?_
      rintro _ ⟨s, inS, rfl⟩
      exact le_add_fin.1 (least ⟨_, ⟨s, inS, t, inT, rfl⟩, rfl⟩)
    cases a with
    | negInf => exact (shift w inT).trans (by simp [add_eq, add?])
    | fin p =>
      rw [add_comm, le_add_fin]
      refine hT.2 ?_
      rintro _ ⟨t, inT, rfl⟩
      exact le_add_fin.1 (add_comm (fin p) _ ▸ shift t inT)
    | posInf => exact absurd (hS.1 ⟨v, inS, rfl⟩) not_posInf_le_fin

theorem isLUB_add (hS : IsLUB (fin '' S) a) (hT : IsLUB (fin '' T) b) (inS : v ∈ S)
    (inT : w ∈ T) : IsLUB (fin '' Set.image2 (· + ·) S T) (a + b) := by
  refine ⟨?_, fun m greatest => ?_⟩
  · rintro _ ⟨_, ⟨s, inS, t, inT, rfl⟩, rfl⟩
    exact add_le_add (hS.1 ⟨s, inS, rfl⟩) (hT.1 ⟨t, inT, rfl⟩)
  · have shift (t : Rat) (inT : t ∈ T) : a + .fin t ≤ m := by
      rw [add_fin_le]
      refine hS.2 ?_
      rintro _ ⟨s, inS, rfl⟩
      exact add_fin_le.1 (greatest ⟨_, ⟨s, inS, t, inT, rfl⟩, rfl⟩)
    cases a with
    | negInf => exact absurd (hS.1 ⟨v, inS, rfl⟩) not_fin_le_negInf
    | fin p =>
      rw [add_comm, add_fin_le]
      refine hT.2 ?_
      rintro _ ⟨t, inT, rfl⟩
      exact add_fin_le.1 (add_comm (fin p) _ ▸ shift t inT)
    | posInf => exact le_trans (by simp [add_eq, add?]) (shift w inT)

theorem Interval.IsTightFor.add (hi : i.IsTightFor S) (hj : j.IsTightFor T) (inS : v ∈ S)
    (inT : w ∈ T) (ri : i.IsRational) (_rj : j.IsRational) :
    (i.add j).IsTightFor (Set.image2 (· + ·) S T) := by
  have hasI := hi.has inS
  have hasJ := hj.has inT
  have lower := Number.value_add ri.lo (add?_of_le (.inl ⟨hasI.1, hasJ.1⟩)) .down
  have upper := Number.value_add ri.hi (add?_of_le (.inr ⟨hasI.2, hasJ.2⟩)) .up
  rw [Interval.add, hasI.not_isEmpty, hasJ.not_isEmpty]
  exact ⟨lower ▸ isGLB_add hi.lo hj.lo inS inT, upper ▸ isLUB_add hi.hi hj.hi inS inT⟩

end Tight

/-! ### Systems with one column -/

namespace Rows

variable {rows : List Row} {v t : Rat}

theorem le_upperBound_iff {x : ExtRat} :
    x ≤ upperBound rows ↔ ∀ r ∈ upperRows 0 rows, x ≤ .fin (r.bound / r.coeff 0) := by
  have fold (hi : ExtRat) (some : List Row) :
      x ≤ some.foldl (fun hi r => hi.min (.fin (r.bound / r.coeff 0))) hi ↔
        x ≤ hi ∧ ∀ r ∈ some, x ≤ .fin (r.bound / r.coeff 0) := by
    induction some generalizing hi with
    | nil => simp
    | cons r some ih =>
      rw [foldl_cons, ih, min_eq, le_min_iff, forall_mem_cons, and_assoc]
  rw [upperBound, fold, and_iff_right (le_posInf x)]

theorem lowerBound_le_iff {x : ExtRat} :
    lowerBound rows ≤ x ↔ ∀ r ∈ lowerRows 0 rows, .fin (r.bound / r.coeff 0) ≤ x := by
  have fold (lo : ExtRat) (some : List Row) :
      some.foldl (fun lo r => lo.max (.fin (r.bound / r.coeff 0))) lo ≤ x ↔
        lo ≤ x ∧ ∀ r ∈ some, .fin (r.bound / r.coeff 0) ≤ x := by
    induction some generalizing lo with
    | nil => simp
    | cons r some ih =>
      rw [foldl_cons, ih, max_eq, max_le_iff, forall_mem_cons, and_assoc]
  rw [lowerBound, fold, and_iff_right (negInf_le x)]

variable (wide : ∀ r ∈ rows, r.coeffs.length = 1)
include wide

theorem holdsAt_column {r : Row} (mem : r ∈ rows) (t : Rat) :
    (r ∈ upperRows 0 rows → (r.holdsAt [t] = true ↔ Under r.strict t (r.bound / r.coeff 0))) ∧
      (r ∈ lowerRows 0 rows → (r.holdsAt [t] = true ↔ Under r.strict (r.bound / r.coeff 0) t)) := by
  have limit : r.limit 0 [] = r.bound / r.coeff 0 := by simp [Row.limit]
  rw [← limit]
  refine ⟨fun upper => ?_, fun lower => ?_⟩
  · have pos : 0 < r.coeff 0 := of_decide_eq_true (mem_filter.1 upper).2
    have bounds := Row.holdsAt_insertIdx_of_pos (y := []) (t := t) (wide r mem) zero_lt_one rfl pos
    exact bounds
  · have neg : r.coeff 0 < 0 := of_decide_eq_true (mem_filter.1 lower).2
    have bounds := Row.holdsAt_insertIdx_of_neg (y := []) (t := t) (wide r mem) zero_lt_one rfl neg
    exact bounds

theorem has_columnRange (solves : Solves rows [t]) : (columnRange rows).Has t := by
  refine ⟨lowerBound_le_iff.2 fun r lower => ?_, le_upperBound_iff.2 fun r upper => ?_⟩
  · have mem := mem_of_mem_filter lower
    exact (((holdsAt_column wide mem t).2 lower).1 (solves r mem)).le
  · have mem := mem_of_mem_filter upper
    exact (((holdsAt_column wide mem t).1 upper).1 (solves r mem)).le

theorem solves_of_between (solves : Solves rows [v]) (low : t < v → lowerBound rows < .fin t)
    (high : v < t → .fin t < upperBound rows) : Solves rows [t] := by
  intro r mem
  have holds := solves r mem
  rcases lt_trichotomy (r.coeff 0) 0 with neg | zero | pos
  · have lower : r ∈ lowerRows 0 rows := mem_filter.2 ⟨mem, decide_eq_true neg⟩
    rw [(holdsAt_column wide mem _).2 lower] at holds ⊢
    rcases le_or_gt v t with up | down
    · simpa using holds.trans (t := false) up
    · exact under_of_lt (fin_lt_fin.1 ((lowerBound_le_iff.1 le_rfl r lower).trans_lt (low down)))
  · have same (s : Rat) := Row.holdsAt_insertIdx_of_zero (y := []) (t := s) (wide r mem)
      zero_lt_one rfl zero
    exact (same t).2 ((same v).1 holds)
  · have upper : r ∈ upperRows 0 rows := mem_filter.2 ⟨mem, decide_eq_true pos⟩
    rw [(holdsAt_column wide mem _).1 upper] at holds ⊢
    rcases le_or_gt t v with down | up
    · simpa using .trans (s := false) down holds
    · exact under_of_lt (fin_lt_fin.1 ((high up).trans_le (le_upperBound_iff.1 le_rfl r upper)))

omit wide

theorem isRational_columnRange (rows : List Row) : (columnRange rows).IsRational :=
  isRational_ofExt _ _

end Rows

namespace Polyhedron

open Rows (Solves)

variable {request : Request} {p : Polyhedron} {f : LinearForm} {n d : Nat} {x : List Rat}
  {cs : List Rat} {rows left : List Row}

private theorem filter_range_eq (inside : d < n) : (range n).filter (· = d) = [d] := by
  change (range n).filter (· == d) = [d]
  rw [filter_beq, count_eq_one_of_mem nodup_range (mem_range.2 inside)]
  rfl

theorem solves_column (projection : IsProjection rows ((range n).map (· = d)) left)
    (inside : d < n) (t : Rat) :
    Solves left [t] ↔ ∃ x, x.length = n ∧ Solves rows x ∧ x.getD d 0 = t := by
  have only := filter_range_eq inside
  rw [projection.solves_iff_readAt (by rw [only]; rfl), only]
  simp [readAt]

theorem isTightFor_column (projection : IsProjection rows ((range n).map (· = d)) left)
    (inside : d < n) (length : x.length = n) (solves : Solves rows x) :
    (columnRange left).IsTightFor
      {t | ∃ x, x.length = n ∧ Solves rows x ∧ x.getD d 0 = t} := by
  have wide : ∀ r ∈ left, r.coeffs.length = 1 := fun r mem => by
    rw [projection.width r mem, count_map, filter_range_eq inside]
    rfl
  simp only [← solves_column projection inside]
  have value := (solves_column projection inside _).2 ⟨x, length, solves, rfl⟩
  exact isTightFor_of_fills value (fun _ => has_columnRange wide)
    fun _ => solves_of_between wide value

theorem ensures_boundDimension (inside : d < p.space.size) :
    Op.Ensures request request.Limited (p.boundDimension d) fun i =>
      i.IsRational ∧ (∀ x, p.Contains x → i.Has (x.getD d 0)) ∧
        (¬ request.Limited → ∀ x, p.Contains x →
          i.IsTightFor {q | ∃ x, p.Contains x ∧ x.getD d 0 = q}) := by
  rw [boundDimension, if_neg (not_le.2 inside)]
  refine (ensures_project (by simpa using p.wide)).bind fun result h => ?_
  cases result with
  | none =>
    exact Op.ensures_pure ⟨isRational_top, fun x _ => has_top _, fun free => absurd (h.1 rfl) free⟩
  | some rows =>
    have tight (x : List Rat) (inP : p.Contains x) :
        (columnRange rows).IsTightFor {q | ∃ x, p.Contains x ∧ x.getD d 0 = q} := by
      simpa only [Contains, and_assoc] using isTightFor_column (h.2 rows rfl) inside inP.1 inP.2
    dsimp only
    split
    · -- a contradiction is only left if there is no vector at all
      rename_i contradiction
      have none (x : List Rat) : ¬ p.Contains x := fun inP => by
        obtain ⟨r, mem, never⟩ := any_eq_true.1 contradiction
        exact Row.not_holdsAt_of_isContradiction never _
          ((solves_column (h.2 rows rfl) inside _).2 ⟨x, inP.1, inP.2, rfl⟩ r mem)
      exact Op.ensures_pure ⟨isRational_bottom, fun x inP => absurd inP (none x),
        fun _ x inP => absurd inP (none x)⟩
    · exact Op.ensures_pure ⟨isRational_columnRange rows,
        fun x inP => (tight x inP).has ⟨x, inP, rfl⟩, fun _ => tight⟩

theorem ensures_toBox (p : Polyhedron) :
    Op.Ensures request request.Limited p.toBox fun bounds =>
      bounds.length = p.space.size ∧ (∀ i ∈ bounds, i.IsRational) ∧
        ∀ x, p.Contains x → InBox bounds x := by
  refine (ensures_isBottom p).bind fun empty h => ?_
  cases empty with
  | true =>
    refine Op.ensures_pure ⟨by simp, ?_, fun x inside => absurd inside (h.1 rfl x)⟩
    intro i mem
    rw [eq_of_mem_replicate mem]
    exact isRational_bottom
  | false =>
    refine (Op.ensures_mapM (range p.space.size) fun d mem =>
      ensures_boundDimension (mem_range.1 mem)).mono fun bounds each => ?_
    obtain ⟨length, each⟩ := forall₂_iff_get.1 each
    rw [length_range] at length
    have at? {d : Nat} {i : Interval} (found : bounds[d]? = some i) :
        i.IsRational ∧ ∀ x, p.Contains x → i.Has (x.getD d 0) := by
      obtain ⟨inside, rfl⟩ := List.getElem?_eq_some_iff.1 found
      have here := each d (by simpa [length] using inside) inside
      exact ⟨here.1, by simpa using here.2.1⟩
    refine ⟨length.symm, fun i mem => ?_, fun x inside d i found => (at? found).2 x inside⟩
    obtain ⟨d, found⟩ := getElem?_of_mem mem
    exact (at? found).1

/-! ### Linear forms -/

theorem dot_foldl_set {terms : List (Nat × Rat)} (nodup : (terms.map Prod.fst).Nodup)
    (inside : ∀ t ∈ terms, t.1 < cs.length) (zero : ∀ t ∈ terms, cs.getD t.1 0 = 0) :
    dot (terms.foldl (fun cs t => cs.set t.1 t.2) cs) x = dot cs x + sumAt terms x := by
  induction terms generalizing cs with
  | nil => simp
  | cons t terms ih =>
    obtain ⟨d, q⟩ := t
    obtain ⟨fresh, nodup⟩ := nodup_cons.1 nodup
    have here : d < cs.length := inside (d, q) (by simp)
    rw [foldl_cons, ih nodup, dot_set here, zero (d, q) (by simp), sumAt_cons]
    · ring
    · intro t mem
      simpa using inside t (by simp [mem])
    · intro t mem
      have other : t.1 ≠ d := fun same => fresh (mem_map.2 ⟨t, mem, same⟩)
      rw [getD_set_of_ne other, zero t (by simp [mem])]

theorem denseTerms?_spec (valid : f.Valid) (dense : denseTerms? n f = some cs) :
    cs.length = n ∧ ∀ x r, (Reaches x f.entries r → r = .fin (dot cs x)) ∧
      (∀ q, SumsTo x f.entries q ↔ q = dot cs x) := by
  obtain ⟨terms, numbers, rest⟩ := Option.bind_eq_some_iff.1 dense
  split at rest
  · rename_i inside
    obtain rfl := Option.some.inj rest
    have weights := mapM_rational_iff.1 numbers
    have length : (terms.foldl (fun cs t => cs.set t.1 t.2) (replicate n 0)).length = n :=
      foldlRecOn terms _ (motive := fun cs : List Rat => cs.length = n) (by simp)
        fun cs width t _ => by simpa using width
    have nodup : (terms.map Prod.fst).Nodup := by
      have dims := congrArg (map Prod.fst) weights
      simp only [map_map] at dims
      exact dims ▸ valid.nodup.sublist (filter_sublist.map _)
    have value (x : List Rat) :
        dot (terms.foldl (fun cs t => cs.set t.1 t.2) (replicate n 0)) x = sumAt terms x := by
      rw [dot_foldl_set nodup (by simpa using inside) (by simp), dot_replicate_zero, zero_add]
    refine ⟨length, fun x r => ⟨fun sum => ?_, fun q => ?_⟩⟩
    · rw [value]
      exact (reaches_filter.2 sum).eq_sumAt weights
    · rw [value, ← sumsTo_filter]
      exact sumsTo_of_rational? weights
  · simp at rest

theorem exists_denseTerms? (below : f.Below n) (finite : ∀ e ∈ f.entries, e.2.rational? ≠ none) :
    ∃ cs, denseTerms? n f = some cs := by
  let ts := f.nonzero.map fun e => (e.1, e.2.rational?.getD 0)
  have weights :
      f.nonzero.map (fun e => (e.1, e.2.rational?)) = ts.map fun t => (t.1, some t.2) := by
    rw [map_map]
    refine map_congr_left fun e mem => ?_
    obtain ⟨q, number⟩ := Option.ne_none_iff_exists'.1 (finite e (LinearForm.mem_nonzero.1 mem).1)
    simp [number]
  have inside : ts.all (·.1 < n) = true := by
    simpa [ts, LinearForm.Below] using below
  refine ⟨_, Option.bind_eq_some_iff.2 ⟨ts, mapM_rational_iff.2 weights, if_pos inside⟩⟩

theorem solves_withColumn {t : Rat} (width : cs.length = x.length)
    (wide : ∀ r ∈ rows, r.coeffs.length = x.length) :
    Solves (withColumn cs rows) (x ++ [t]) ↔ Solves rows x ∧ dot cs x = t := by
  have definition : dot (cs.map (- ·) ++ [1]) (x ++ [t]) = t - dot cs x := by
    rw [dot_append (by simpa using width), dot_map_neg, dot_cons, dot_nil_right]
    ring
  have old (r : Row) (mem : r ∈ rows) :
      Row.holdsAt { r with coeffs := r.coeffs ++ [0] } (x ++ [t]) = r.holdsAt x := by
    simp [Row.holdsAt, dot_append (wide r mem)]
  rw [withColumn, solves_append, le_antisymm_iff, and_comm (a := dot cs x ≤ t)]
  refine and_congr (forall_mem_map.trans (forall₂_congr fun r mem => by rw [old r mem])) ?_
  simp only [Solves, forall_mem_cons, Row.flip, Row.holdsAt_iff, dot_map_neg, definition]
  simp [Under]

theorem width_withColumn (width : cs.length = n) (wide : ∀ r ∈ rows, r.coeffs.length = n) :
    ∀ r ∈ withColumn cs rows,
      r.coeffs.length = ((range (n + 1)).map fun d => decide (d = n)).length := by
  intro r mem
  rcases mem_append.1 mem with old | new
  · obtain ⟨t, inRows, rfl⟩ := mem_map.1 old
    simp [wide t inRows]
  · rcases mem_pair.1 new with rfl | rfl <;> simp [Row.flip, width]

theorem isTightFor_lastColumn (width : cs.length = n) (wide : ∀ r ∈ rows, r.coeffs.length = n)
    (projection : IsProjection (withColumn cs rows) ((range (n + 1)).map (· = n)) left)
    (length : x.length = n) (solves : Solves rows x) : (columnRange left).IsTightFor
      {q | ∃ x, (x.length = n ∧ Solves rows x) ∧ dot cs x = q} := by
  have solves_iff {x : List Rat} {t : Rat} (length : x.length = n) :=
    solves_withColumn (t := t) (width.trans length.symm) (length.symm ▸ wide)
  have values (q : Rat) : (∃ y, y.length = n + 1 ∧ Solves (withColumn cs rows) y ∧ y.getD n 0 = q) ↔
      ∃ x, (x.length = n ∧ Solves rows x) ∧ dot cs x = q := by
    constructor
    · rintro ⟨y, length, solves, rfl⟩
      obtain rfl | ⟨x, t, rfl⟩ := eq_nil_or_concat' y
      · simp at length
      · have inner : x.length = n := by simpa using length
        obtain ⟨solves, value⟩ := (solves_iff inner).1 solves
        exact ⟨x, ⟨inner, solves⟩, by simp [value, ← inner]⟩
    · rintro ⟨x, ⟨length, solves⟩, rfl⟩
      exact ⟨x ++ [dot cs x], by simp [length], (solves_iff length).2 ⟨solves, rfl⟩,
        by simp [← length]⟩
  simp only [← values]
  exact isTightFor_column projection (Nat.lt_succ_self n) (by simp [length])
    ((solves_iff length).2 ⟨solves, rfl⟩)

theorem ensures_boundForm (valid : f.Valid) (below : f.Below p.space.size) :
    Op.Ensures request request.Limited (p.boundForm f) fun i =>
      (i.IsRational ∧ ∀ x r, p.Contains x → f.Reaches x r → i.Spans r) ∧
        ∀ cs, denseTerms? p.space.size f = some cs → ¬ request.Limited → ∀ x, p.Contains x →
          ∃ j : Interval, j.IsRational ∧ j.IsTightFor {q | ∃ x, p.Contains x ∧ dot cs x = q} ∧
            i = j.add (f.constant.toIntervalOf .rational) := by
  have overBox : Op.Ensures request request.Limited
      (do .ofExcept (f.eval (← p.toBox) .rational)) fun i =>
        i.IsRational ∧ ∀ x r, p.Contains x → f.Reaches x r → i.Spans r := by
    refine (ensures_toBox p).bind ?_
    rintro _ ⟨length, ranges, inBox⟩
    obtain ⟨i, run, kind, -, values⟩ := LinearForm.eval_spec Kind.isOutward_rational valid
      (length.symm ▸ below) fun i mem => (ranges i mem).valid
    exact Op.ensures_ofExcept run ⟨isOf_rational_iff.1 kind,
      fun x r inside reaches => values x (inBox x inside) r reaches⟩
  refine (ensures_isBottom p).bind fun empty h => ?_
  cases empty with
  | true =>
    have none (x : List Rat) : ¬ p.Contains x := h.1 rfl x
    exact Op.ensures_pure ⟨⟨isRational_bottom, fun x _ inP => absurd inP (none x)⟩,
      fun _ _ _ x inP => absurd inP (none x)⟩
  | false =>
    cases dense : denseTerms? p.space.size f with
    | none => exact overBox.mono fun i h => ⟨h, by simp⟩
    | some cs =>
      obtain ⟨width, terms⟩ := denseTerms?_spec valid dense
      refine (ensures_project (width_withColumn width p.wide)).bind fun result h => ?_
      cases result with
      | none => exact overBox.mono fun i spans => ⟨spans, fun _ _ free => absurd (h.1 rfl) free⟩
      | some rows =>
        have range := isRational_columnRange rows
        have tight (x : List Rat) (inP : p.Contains x) :=
          isTightFor_lastColumn width p.wide (h.2 rows rfl) inP.1 inP.2
        refine Op.ensures_pure ⟨⟨range.add _, fun x r inP reaches => ?_⟩, fun ds same _ x inP => ?_⟩
        · obtain ⟨k, t, spans, sum, rfl⟩ := reaches
          obtain rfl := (terms x t).1 sum
          exact ((tight x inP).has ⟨x, inP, rfl⟩).add (by simp [range.lo]) (by simp [range.hi])
            (spans.toIntervalOf (by simp))
        · obtain rfl := Option.some.inj same
          exact ⟨_, range, tight x inP, rfl⟩

/-- Over a polyhedron with a point, the ranges of the dimensions and of the forms with finite
coefficients are the tightest. -/
theorem ranges_tightest (p : Polyhedron) {x : List Rat} (inP : p.Contains x) (request : Request)
    (free : request.options.maxObjectSize = 0) :
    (∀ d < p.space.size, Op.Returns request (p.boundDimension d) fun i =>
        i.IsTightFor {q | ∃ x, p.Contains x ∧ x.getD d 0 = q}) ∧
      ∀ f : LinearForm, f.Valid → f.Below p.space.size →
        (∀ e ∈ f.entries, e.2.rational? ≠ none) → Op.Returns request (p.boundForm f) fun i =>
          (∃ j : Interval, j.IsTightFor {q | ∃ x, p.Contains x ∧ Terms.SumsTo x f.entries q} ∧
            i = j.add (f.constant.toIntervalOf .rational)) ∧
          ∀ k, f.constant.Has k → i.IsTightFor {q | ∃ x, p.Contains x ∧ f.Takes x q} := by
  have unlimited : ¬ request.Limited := by simp [Request.Limited, free]
  refine ⟨fun d inside => ?_, fun f valid below finite => ?_⟩
  · exact ((ensures_boundDimension inside).mono fun i h => h.2.2 unlimited x inP).returns unlimited
  · obtain ⟨cs, dense⟩ := exists_denseTerms? below finite
    obtain ⟨-, terms⟩ := denseTerms?_spec valid dense
    refine ((ensures_boundForm valid below).mono fun i h => ?_).returns unlimited
    obtain ⟨j, rational, tight, rfl⟩ := h.2 cs dense unlimited x inP
    have sums (x : List Rat) (q : Rat) : dot cs x = q ↔ Terms.SumsTo x f.entries q :=
      eq_comm.trans ((terms x (.fin q)).2 q).symm
    refine ⟨⟨j, by simpa only [sums] using tight, rfl⟩, fun k has => ?_⟩
    have constant := Interval.isTightFor_self (Coefficient.has_toIntervalOf_rational.2 has)
    have both := tight.add constant ⟨x, inP, rfl⟩ (Coefficient.has_toIntervalOf_rational.2 has)
      rational (Interval.isOf_rational_iff.1 (valid.constant.isOf_toIntervalOf (by simp)))
    convert both using 1
    ext q
    simp only [LinearForm.Takes, ← sums, Set.mem_image2, Set.mem_ofPred_eq,
      Coefficient.has_toIntervalOf_rational]
    constructor
    · rintro ⟨y, inY, k, has, value⟩
      exact ⟨dot cs y, ⟨y, inY, rfl⟩, k, has, by rw [value, sub_add_cancel]⟩
    · rintro ⟨_, ⟨y, inY, rfl⟩, k, has, rfl⟩
      exact ⟨y, inY, k, has, by rw [add_sub_cancel_right]⟩

/-- Over `0 ≤ x < 1` the range of `2 x + [0, 3]` is the tightest, with the bound that `x` misses. -/
theorem half_open_ranges_tightest :
    let p : Polyhedron := ⟨⟨0, 1⟩, [⟨[1], 1, true⟩, ⟨[-1], 0, false⟩], by decide⟩
    let f : LinearForm := ⟨.range (.ofExt (.fin 0) (.fin 3)), .sparse [(0, .rational 2)]⟩
    p.Contains [0] ∧ f.Valid ∧ Op.Returns ⟨.forget, .standard, []⟩ (p.boundForm f) fun i =>
      i.IsTightFor {q | ∃ x, p.Contains x ∧ f.Takes x q} := by
  intro p f
  have inside : p.Contains [0] := ⟨rfl, by simp [p, Solves, Row.holdsAt]⟩
  have valid : f.Valid := ⟨by decide, fun e mem => by
    obtain rfl := List.mem_singleton.1 mem
    trivial, (Interval.isRational_ofExt _ _).valid⟩
  refine ⟨inside, valid, ((ranges_tightest p inside ⟨.forget, .standard, []⟩ rfl).2 f valid
    (fun e mem => ?_) (by decide +kernel)).mono fun i h => h.2 0 ?_⟩
  · obtain rfl := List.mem_singleton.1 (LinearForm.mem_nonzero.1 mem).1
    decide
  · exact Interval.has_ofExt_fin.2 (by norm_num)

end Polyhedron

end Enclosure
