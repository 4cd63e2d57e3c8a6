import Enclosure.Proofs.Vectors
import Mathlib.Data.List.Perm.Subperm
import Mathlib.Data.List.Range
import Mathlib.Data.List.Sort

/-!
# Vectors under changes of a space

Inserting dimensions moves the old ones, and a combination with zeros at the insertion points reads
a vector only where the old dimensions are.
-/

namespace Enclosure

open List

def readAt (dims : List Nat) (x : List Rat) : List Rat := dims.map (x.getD · 0)

@[simp]
theorem length_readAt (dims : List Nat) (x : List Rat) : (readAt dims x).length = dims.length := by
  simp [readAt]

theorem ext_getD {x y : List Rat} (length : x.length = y.length)
    (same : ∀ i, x.getD i 0 = y.getD i 0) : x = y := by
  refine ext_getElem length fun i inside inside' => ?_
  rw [← getD_eq_getElem _ 0 inside, ← getD_eq_getElem _ 0 inside', same i]

theorem readAt_range_append {x : List Rat} {n : Nat} (length : x.length = n) (y : List Rat) :
    readAt (range n) (x ++ y) = x := by
  subst length
  refine ext_getElem (by simp) fun i inside inside' => ?_
  simp [readAt, getElem?_append_left inside', inside']

theorem readAt_range_append_drop {x : List Rat} {n : Nat} (le : n ≤ x.length) :
    readAt (range n) x ++ x.drop n = x := by
  have first := readAt_range_append (length_take_of_le le) (x.drop n)
  rw [take_append_drop] at first
  rw [first, take_append_drop]

theorem getD_readAt {dims : List Nat} {i d : Nat} (found : dims[i]? = some d) (x : List Rat) :
    (readAt dims x).getD i 0 = x.getD d 0 := by
  simp [readAt, found]

theorem getElem_lt_iff {α : Type} [LinearOrder α] {l : List α} (sorted : l.Pairwise (· ≤ ·)) (a : α)
    {k : Nat} (inside : k < l.length) : l[k] < a ↔ k < l.countP (· < a) := by
  induction l generalizing k with
  | nil => exact absurd inside (Nat.not_lt_zero k)
  | cons d l ih =>
    obtain ⟨least, sorted⟩ := pairwise_cons.1 sorted
    by_cases small : d < a
    · cases k with
      | zero => simp [small]
      | succ k => simpa [small] using ih sorted (by simpa using inside)
    · have above (e : α) mem : a ≤ e :=
        (not_lt.1 small).trans ((mem_cons.1 mem).elim (·.ge) (least e))
      have none : (d :: l).countP (· < a) = 0 :=
        countP_eq_zero.2 fun e mem => by simpa using above e mem
      rw [none]
      simpa using above _ (getElem_mem inside)

/-! ### Products -/

theorem dot_append_drop (cs ds xs : List Rat) :
    dot (cs ++ ds) xs = dot cs xs + dot ds (xs.drop cs.length) := by
  induction cs generalizing xs with
  | nil => simp
  | cons c cs ih =>
    cases xs with
    | nil => simp
    | cons x xs => simp [ih, add_assoc]

theorem dot_replicate_append_single (n : Nat) (q : Rat) (xs : List Rat) :
    dot (replicate n 0 ++ [q]) xs = q * xs.getD n 0 := by
  rw [dot_append_drop, dot_replicate_zero, zero_add, length_replicate]
  by_cases inside : n < xs.length
  · rw [drop_eq_getElem_cons inside, dot_cons, dot_nil, add_zero, getD_eq_getElem _ _ inside]
  · rw [drop_eq_nil_of_le (not_lt.1 inside), dot_nil_right,
      getD_eq_default _ _ (not_lt.1 inside), mul_zero]

namespace SpaceChange

variable {α : Type} {c : SpaceChange} {s : Space} {j : Nat} {v : List α}

/-- The change inserts as many dimensions as it counts, at places of the space and in order. -/
structure Inserts (c : SpaceChange) (s : Space) : Prop where
  counts : c.dims.length = c.ints + c.reals
  sorted : c.dims.Pairwise (· ≤ ·)
  reach : ∀ d ∈ c.dims, d ≤ s.size

/-- The change removes as many dimensions of the space as it counts, each once. -/
structure Removes (c : SpaceChange) (s : Space) : Prop where
  counts : c.dims.length = c.ints + c.reals
  nodup : c.dims.Nodup
  inside : ∀ d ∈ c.dims, d < s.size
  ints : c.ints ≤ s.ints
  reals : c.reals ≤ s.reals

theorem isSorted_iff {dims : List Nat} : isSorted dims = true ↔ dims.Pairwise (· ≤ ·) := by
  rw [← isChain_iff_pairwise]
  induction dims with
  | nil => simp [isSorted]
  | cons d dims ih =>
    cases dims with
    | nil => simp [isSorted]
    | cons e dims => rw [isSorted, isChain_cons_cons, Bool.and_eq_true, ih, decide_eq_true_iff]

theorem make_eq (counts : c.dims.length = c.ints + c.reals) (sorted : c.dims.Pairwise (· ≤ ·)) :
    make c.dims c.ints c.reals = .ok c := by
  rw [make, if_neg (not_not.2 counts), isSorted_iff.2 sorted]
  rfl

/-! ### Insertion -/

private def spread {α : Type} (c : SpaceChange) (fill : α) (v : List α) : List α :=
  v.zipIdx.flatMap fun (x, i) => replicate (c.dims.count i) fill ++ [x]

private theorem spread_append (fill : α) (v : List α) (x : α) :
    c.spread fill (v ++ [x]) =
      c.spread fill v ++ (replicate (c.dims.count v.length) fill ++ [x]) := by
  simp [spread, zipIdx_append]

private theorem countP_le_eq (dims : List Nat) (n : Nat) :
    dims.countP (· ≤ n) = dims.countP (· < n) + dims.count n := by
  induction dims with
  | nil => rfl
  | cons d dims ih =>
    rcases lt_trichotomy d n with less | rfl | more
    · simp [less, less.le, less.ne]
      omega
    · simp
      omega
    · simp [ih, more.not_ge, more.le.not_gt, more.ne']

private theorem length_spread (fill : α) (v : List α) :
    (c.spread fill v).length = v.length + c.dims.countP (· < v.length) := by
  induction v using reverseRecOn with
  | nil => simp [spread]
  | append_singleton v x ih =>
    have succ : c.dims.countP (· < v.length + 1) = c.dims.countP (· ≤ v.length) := by
      simp only [Nat.lt_succ_iff]
    rw [spread_append]
    simp only [length_append, length_replicate, length_singleton, succ, countP_le_eq]
    omega

theorem length_insertInto (fill : α) (v : List α) :
    (c.insertInto fill v).length = v.length + c.dims.length := by
  have all : c.dims.length = c.dims.countP (· < v.length) + c.dims.countP (v.length ≤ ·) := by
    rw [length_eq_countP_add_countP (p := (· < v.length))]
    simp
  change (c.spread fill v ++ replicate _ fill).length = _
  rw [length_append, length_spread, length_replicate]
  omega

private theorem shift_eq (n : Nat) : n + c.dims.countP (· < n) + c.dims.count n = c.shift n := by
  rw [shift, countP_le_eq]
  omega

private theorem dot_spread (cs y : List Rat) :
    dot (c.spread 0 cs) y = dot cs (readAt (c.shifts cs.length) y) := by
  induction cs using reverseRecOn with
  | nil => simp [spread]
  | append_singleton cs q ih =>
    rw [spread_append, dot_append_drop, ih, dot_replicate_append_single, length_spread,
      getD_eq_getElem?_getD, getElem?_drop, shift_eq, ← getD_eq_getElem?_getD]
    simp only [shifts, readAt, length_append, length_singleton, range_succ, map_append, map_cons]
    rw [dot_append (by simp), dot_cons, dot_nil, add_zero]

theorem dot_insertInto (cs y : List Rat) :
    dot (c.insertInto 0 cs) y = dot cs (readAt (c.shifts cs.length) y) := by
  change dot (c.spread 0 cs ++ replicate _ 0) y = _
  rw [dot_append_drop, dot_replicate_zero, add_zero, dot_spread]

theorem filter_zipIdx_insertInto {p : α → Bool} {fill : α} (skip : p fill = false) (v : List α) :
    (c.insertInto fill v).zipIdx.filter (fun e => p e.1) =
      (v.zipIdx.filter fun e => p e.1).map fun e => (e.1, c.shift e.2) := by
  have skipped (n k : Nat) : ((replicate n fill).zipIdx k).filter (fun e => p e.1) = [] := by
    refine filter_eq_nil_iff.2 fun e mem => ?_
    obtain ⟨-, -, value⟩ := mem_zipIdx mem
    simp [value, skip]
  have spread : (c.spread fill v).zipIdx.filter (fun e => p e.1) =
      (v.zipIdx.filter fun e => p e.1).map fun e => (e.1, c.shift e.2) := by
    induction v using reverseRecOn with
    | nil => simp [spread]
    | append_singleton v x ih =>
      rw [spread_append, zipIdx_append, filter_append, ih, zipIdx_append, filter_append, skipped,
        nil_append, zipIdx_append, filter_append, map_append]
      simp only [length_spread, length_replicate, Nat.zero_add, shift_eq, zipIdx_singleton]
      cases keep : p x <;> simp [keep]
  change ((c.spread fill v ++ replicate _ fill).zipIdx).filter _ = _
  rw [zipIdx_append, filter_append, spread, skipped, append_nil]

theorem mem_added : j ∈ c.added ↔ ∃ k d, c.dims[k]? = some d ∧ j = d + k := by
  simp only [added, mem_map, Prod.exists, mem_zipIdx_iff_getElem?]
  constructor
  · rintro ⟨d, k, found, rfl⟩
    exact ⟨k, d, found, rfl⟩
  · rintro ⟨k, d, found, rfl⟩
    exact ⟨d, k, found, rfl⟩

section

variable (sorted : c.dims.Pairwise (· ≤ ·))
include sorted

private theorem add_mem_added {n k : Nat} (low : c.dims.countP (· < n) ≤ k)
    (high : k < c.dims.countP (· ≤ n)) : n + k ∈ c.added := by
  have inside : k < c.dims.length := high.trans_le countP_le_length
  have atLeast := (getElem_lt_iff sorted n inside).not.2 (not_lt.2 low)
  have atMost := (getElem_lt_iff sorted (n + 1) inside).2
    (by simpa only [Nat.lt_succ_iff] using high)
  have value : c.dims[k] = n := by omega
  exact mem_added.2 ⟨k, n, value ▸ getElem?_eq_getElem inside, rfl⟩

private theorem getElem?_spread {fill x : α} (found : (c.spread fill v)[j]? = some x) :
    (∃ d, v[d]? = some x ∧ j = c.shift d) ∨ x = fill ∧ j ∈ c.added := by
  induction v using reverseRecOn with
  | nil => simp [spread] at found
  | append_singleton v y ih =>
    have before := length_spread (c := c) fill v
    have count := countP_le_eq c.dims v.length
    rw [spread_append] at found
    by_cases old : j < (c.spread fill v).length
    · rw [getElem?_append_left old] at found
      refine (ih found).imp_left fun ⟨d, element, place⟩ => ⟨d, ?_, place⟩
      rw [getElem?_append_left (lt_of_getElem? element), element]
    · rw [getElem?_append_right (not_lt.1 old)] at found
      obtain ⟨k, rfl⟩ := Nat.exists_eq_add_of_le (not_lt.1 old)
      rw [Nat.add_sub_cancel_left] at found
      by_cases new : k < c.dims.count v.length
      · -- the gap in front of the last element
        rw [getElem?_append_left (by simpa using new), getElem?_replicate, if_pos new] at found
        refine .inr ⟨(Option.some.inj found).symm, ?_⟩
        rw [before, Nat.add_assoc]
        exact add_mem_added sorted (Nat.le_add_right _ _) (by omega)
      · rw [getElem?_append_right (by simpa using new), length_replicate] at found
        obtain ⟨only, rfl⟩ := List.getElem?_eq_some_iff.1 found
        have last : k = c.dims.count v.length := by
          rw [length_singleton] at only
          omega
        refine .inl ⟨v.length, by simp, ?_⟩
        rw [shift]
        omega

theorem getElem?_insertInto {fill x : α} (reach : ∀ d ∈ c.dims, d ≤ v.length)
    (found : (c.insertInto fill v)[j]? = some x) :
    (∃ d, v[d]? = some x ∧ j = c.shift d) ∨ x = fill ∧ j ∈ c.added := by
  change (c.spread fill v ++ replicate (c.dims.countP (v.length ≤ ·)) fill)[j]? = some x at found
  by_cases old : j < (c.spread fill v).length
  · rw [getElem?_append_left old] at found
    exact getElem?_spread sorted found
  · rw [getElem?_append_right (not_lt.1 old), getElem?_replicate] at found
    obtain ⟨k, rfl⟩ := Nat.exists_eq_add_of_le (not_lt.1 old)
    split at found
    · -- all insertion points that are left are at the end
      have all : c.dims.countP (· ≤ v.length) = c.dims.length :=
        countP_eq_length.2 fun d mem => by simpa using reach d mem
      have split : c.dims.length = c.dims.countP (· < v.length) + c.dims.countP (v.length ≤ ·) := by
        rw [length_eq_countP_add_countP (p := (· < v.length))]
        simp
      refine .inr ⟨(Option.some.inj found).symm, ?_⟩
      rw [length_spread, Nat.add_assoc]
      exact add_mem_added sorted (Nat.le_add_right _ _) (by omega)
    · cases found

end

private theorem getElem?_spread_shift (fill : α) {x : α} {d : Nat} (found : v[d]? = some x) :
    (c.spread fill v)[c.shift d]? = some x := by
  induction v using reverseRecOn with
  | nil => simp at found
  | append_singleton v y ih =>
    rw [spread_append]
    by_cases old : d < v.length
    · rw [getElem?_append_left old] at found
      have place := ih found
      rwa [getElem?_append_left (lt_of_getElem? place)]
    · obtain ⟨inside, rfl⟩ := List.getElem?_eq_some_iff.1 found
      obtain rfl : d = v.length := by
        rw [length_append, length_singleton] at inside
        omega
      have place : c.shift v.length - (c.spread fill v).length = c.dims.count v.length := by
        rw [shift, length_spread, countP_le_eq]
        omega
      rw [getElem?_append_right, place]
      · simp
      · rw [shift, length_spread, countP_le_eq]
        omega

theorem getElem?_insertInto_shift (fill : α) {x : α} {d : Nat} (found : v[d]? = some x) :
    (c.insertInto fill v)[c.shift d]? = some x := by
  have place := getElem?_spread_shift (c := c) fill found
  change (c.spread fill v ++ _)[c.shift d]? = _
  rwa [getElem?_append_left (lt_of_getElem? place)]

theorem shift_lt_shift {i j : Nat} (less : i < j) : c.shift i < c.shift j := by
  have grows : c.dims.countP (· ≤ i) ≤ c.dims.countP (· ≤ j) :=
    countP_mono_left fun d _ low => by
      simp only [decide_eq_true_eq] at low ⊢
      exact low.trans less.le
  unfold shift
  omega

theorem nodup_shifts (c : SpaceChange) (n : Nat) : (c.shifts n).Nodup :=
  pairwise_map.2 (pairwise_lt_range.imp fun less => (shift_lt_shift less).ne)

theorem Inserts.added_lt (fits : c.Inserts s) (new : j ∈ c.added) : j < (s.grow c).size := by
  obtain ⟨k, d, found, rfl⟩ := mem_added.1 new
  obtain ⟨inside, rfl⟩ := List.getElem?_eq_some_iff.1 found
  have reach := fits.reach _ (getElem_mem inside)
  have counts := fits.counts
  simp only [Space.size, Space.grow] at reach ⊢
  omega

theorem Inserts.size_grow (fits : c.Inserts s) : (s.grow c).size = s.size + c.dims.length := by
  simp only [Space.size, Space.grow, fits.counts]
  omega

theorem Inserts.shift_lt (fits : c.Inserts s) {i : Nat} (inside : i < s.size) :
    c.shift i < (s.grow c).size := by
  have atMost : c.dims.countP (· ≤ i) ≤ c.dims.length := countP_le_length
  rw [fits.size_grow, shift]
  omega

theorem sorted_added (sorted : c.dims.Pairwise (· ≤ ·)) : c.added.Pairwise (· < ·) := by
  rw [pairwise_iff_getElem] at sorted ⊢
  intro k l hk hl less
  have length : c.added.length = c.dims.length := by simp [added]
  have := sorted k l (length ▸ hk) (length ▸ hl) less
  simp only [added, getElem_map, getElem_zipIdx]
  omega

theorem shift_notMem_added (sorted : c.dims.Pairwise (· ≤ ·)) (i : Nat) : c.shift i ∉ c.added := by
  intro mem
  obtain ⟨k, d, found, same⟩ := mem_added.1 mem
  obtain ⟨inside, rfl⟩ := List.getElem?_eq_some_iff.1 found
  have place := getElem_lt_iff sorted (i + 1) inside
  simp only [Nat.lt_succ_iff] at place
  unfold shift at same
  omega

theorem Inserts.mem_added_or_eq_shift (fits : c.Inserts s) (inside : j < (s.grow c).size) :
    j ∈ c.added ∨ ∃ i < s.size, j = c.shift i := by
  have length : (replicate s.size ()).length = s.size := length_replicate
  have within : j < (c.insertInto () (replicate s.size ())).length := by
    rwa [length_insertInto, length, ← fits.size_grow]
  rcases getElem?_insertInto fits.sorted (length.symm ▸ fits.reach)
      (getElem?_eq_getElem within) with ⟨i, found, rfl⟩ | ⟨-, new⟩
  · exact .inr ⟨i, length ▸ lt_of_getElem? found, rfl⟩
  · exact .inl new

theorem insertInto_of_isEmpty (none : c.isEmpty = true) (fill : α) (v : List α) :
    c.insertInto fill v = v := by
  have dims : c.dims = [] := isEmpty_iff.1 none
  simp [insertInto, dims, ← map_eq_flatMap]

/-! ### Removal -/

theorem Removes.shrink_eq (fits : c.Removes s) :
    s.shrink c = .ok ⟨s.ints - c.ints, s.reals - c.reals⟩ := by
  rw [Space.shrink, if_pos ⟨fits.ints, fits.reals⟩]

theorem mem_kept {n d : Nat} : d ∈ c.kept n ↔ d < n ∧ d ∉ c.dims := by
  simp [kept, drops]

theorem nodup_kept (c : SpaceChange) (n : Nat) : (c.kept n).Nodup := nodup_range.filter _

theorem lt_of_mem_kept {n d : Nat} (mem : d ∈ c.kept n) : d < n := (mem_kept.1 mem).1

theorem getD_kept_lt {n k : Nat} (length : (c.kept n).length = k) :
    ∀ d < k, (c.kept n).getD d 0 < n := by
  intro d below
  rw [getD_eq_getElem _ _ (length.symm ▸ below)]
  exact lt_of_mem_kept (getElem_mem _)

theorem removeFrom_eq (v : List α) (a : α) :
    c.removeFrom v = (c.kept v.length).map (v.getD · a) := by
  induction v using reverseRecOn with
  | nil => rfl
  | append_singleton v x ih =>
    have old : ∀ d ∈ c.kept v.length, (v ++ [x]).getD d a = v.getD d a := by
      intro d mem
      have inside : d < v.length := lt_of_mem_kept mem
      simp [getElem?_append_left inside]
    have dims : c.kept (v ++ [x]).length =
        c.kept v.length ++ if c.drops v.length then [] else [v.length] := by
      cases dropped : c.drops v.length <;> simp [kept, range_succ, dropped]
    have rest : c.removeFrom (v ++ [x]) =
        c.removeFrom v ++ if c.drops v.length then [] else [x] := by
      cases dropped : c.drops v.length <;> simp [removeFrom, zipIdx_append, dropped]
    rw [dims, rest, ih, map_append, map_congr_left old]
    split <;> simp

theorem Removes.length_kept (fits : c.Removes s) :
    (c.kept s.size).length = s.ints - c.ints + (s.reals - c.reals) := by
  have dropped : ((range s.size).filter c.drops).Perm c.dims := by
    refine (perm_ext_iff_of_nodup (nodup_range.filter _) fits.nodup).2 fun d => ?_
    simp only [drops, mem_filter, mem_range, contains_iff_mem]
    exact ⟨And.right, fun mem => ⟨fits.inside d mem, mem⟩⟩
  have all := length_eq_length_filter_add c.drops (l := range s.size)
  rw [dropped.length_eq, length_range] at all
  have := fits.counts
  have := fits.ints
  have := fits.reals
  simp only [kept, Space.size] at all ⊢
  omega

theorem removeFrom_of_isEmpty (none : c.isEmpty = true) (v : List α) : c.removeFrom v = v := by
  have dims : c.dims = [] := isEmpty_iff.1 none
  simp [removeFrom, drops, dims]

theorem Inserts.kept_eq_shifts {r : SpaceChange} (fits : c.Inserts s) (new : r.dims = c.added) :
    r.kept (s.grow c).size = c.shifts s.size := by
  have left : (r.kept (s.grow c).size).Pairwise (· < ·) := pairwise_lt_range.filter _
  have right : (c.shifts s.size).Pairwise (· < ·) :=
    pairwise_map.2 (pairwise_lt_range.imp shift_lt_shift)
  refine left.eq_of_mem_iff right fun j => ?_
  simp only [mem_kept, new, shifts, mem_map, mem_range]
  constructor
  · rintro ⟨inside, old⟩
    obtain ⟨i, below, rfl⟩ := (fits.mem_added_or_eq_shift inside).resolve_left old
    exact ⟨i, below, rfl⟩
  · rintro ⟨i, below, rfl⟩
    exact ⟨fits.shift_lt below, shift_notMem_added fits.sorted i⟩

/-! ### Where dimensions are after a removal -/

theorem position?_of_notMem (stays : j ∉ c.dims) : c.position? j = some (c.kept j).length := by
  have all := length_eq_length_filter_add c.drops (l := range j)
  rw [length_range, ← countP_eq_length_filter] at all
  rw [position?, if_neg (by simpa [drops] using stays), kept]
  congr 1
  omega

theorem getElem?_kept_length {j n : Nat} (inside : j < n) (stays : j ∉ c.dims) :
    (c.kept n)[(c.kept j).length]? = some j := by
  obtain ⟨k, rfl⟩ := Nat.exists_eq_add_of_le (Nat.succ_le_of_lt inside)
  have drops : c.drops j = false := by simpa [drops] using stays
  simp only [kept, range_add, range_succ, filter_append, filter_cons, drops]
  simp

theorem position?_eq_none_iff : c.position? j = none ↔ j ∈ c.dims := by
  simp [position?, drops]

theorem getElem?_positions {j n : Nat} (inside : j < n) :
    (c.positions n)[j]? = some (c.position? j) := by
  simp [positions, inside]

theorem getElem?_positions_eq_some {i j n : Nat} :
    (c.positions n)[j]? = some (some i) ↔ (c.kept n)[i]? = some j := by
  constructor
  · intro place
    have inside : j < n := by
      have := lt_of_getElem? place
      simpa [positions] using this
    have place : c.position? j = some i :=
      Option.some.inj ((getElem?_positions inside).symm.trans place)
    have stays : j ∉ c.dims := fun gone => by simp [position?_eq_none_iff.2 gone] at place
    obtain rfl := Option.some.inj ((position?_of_notMem stays).symm.trans place)
    exact getElem?_kept_length inside stays
  · intro kept
    obtain ⟨inside, stays⟩ := mem_kept.1 (mem_of_getElem? kept)
    have place := getElem?_kept_length inside stays
    rw [getElem?_positions inside, position?_of_notMem stays,
      (getElem?_inj (lt_of_getElem? kept) (nodup_kept c n)).1 (kept.trans place.symm)]

theorem getElem?_positions_eq_none {j n : Nat} :
    (c.positions n)[j]? = some none ↔ j < n ∧ j ∈ c.dims := by
  rw [← position?_eq_none_iff]
  by_cases inside : j < n
  · simp [getElem?_positions inside, inside]
  · simp [positions, inside]

end SpaceChange

/-! ### Permutations -/

theorem dot_eq_sum_range {cs xs : List Rat} {n : Nat} (hc : cs.length = n) (hx : xs.length = n) :
    dot cs xs = ((range n).map fun i => cs.getD i 0 * xs.getD i 0).sum := by
  rw [dot_eq_sum]
  congr 1
  refine ext_getElem (by simp [hc, hx]) fun i inside _ => ?_
  rw [length_zipWith] at inside
  rw [getElem_zipWith, getElem_map, getElem_range,
    getD_eq_getElem _ _ (by omega), getD_eq_getElem _ _ (by omega)]

namespace Permutation

variable {p : Permutation} {n : Nat} {d : Nat} {i : Nat}

/-- The images are all dimensions below `n`, each once. -/
structure Valid (p : Permutation) (n : Nat) : Prop where
  length : p.images.length = n
  nodup : p.images.Nodup
  inside : ∀ d ∈ p.images, d < n

section

variable (valid : p.Valid n)
include valid

theorem Valid.perm : p.images.Perm (range n) := by
  refine (subperm_of_subset valid.nodup fun d mem => ?_).perm_of_length_le (by simp [valid.length])
  exact mem_range.2 (valid.inside d mem)

theorem Valid.getElem?_images (inside : i < n) : p.images[i]? = some (p.image i) := by
  have within : i < p.images.length := valid.length.symm ▸ inside
  rw [image, getD_eq_getElem _ _ within, getElem?_eq_getElem within]

theorem Valid.image_lt (inside : i < n) : p.image i < n :=
  valid.inside _ (mem_of_getElem? (valid.getElem?_images inside))

theorem Valid.images_eq : p.images = (range n).map p.image := by
  refine ext_getElem? fun i => ?_
  by_cases inside : i < n
  · rw [valid.getElem?_images inside, getElem?_map, getElem?_range inside, Option.map_some]
  · rw [getElem?_eq_none (by rw [valid.length]; omega), getElem?_eq_none (by simpa using inside)]

theorem Valid.preimage_image (inside : i < n) : p.preimage (p.image i) = i := by
  obtain ⟨_, value⟩ := List.getElem?_eq_some_iff.1 (valid.getElem?_images inside)
  rw [preimage, ← value, valid.nodup.idxOf_getElem]

theorem Valid.image_preimage (inside : d < n) : p.image (p.preimage d) = d := by
  have mem : d ∈ p.images := valid.perm.mem_iff.2 (mem_range.2 inside)
  rw [image, preimage, getD_eq_getElem _ _ (idxOf_lt_length_iff.2 mem), getElem_idxOf]

theorem Valid.preimage_lt (inside : d < n) : p.preimage d < n := by
  have mem : d ∈ p.images := valid.perm.mem_iff.2 (mem_range.2 inside)
  exact valid.length ▸ idxOf_lt_length_iff.2 mem

theorem Valid.make_eq : make p.images = .ok p := by
  refine if_pos ⟨all_eq_true.2 fun d mem => decide_eq_true ?_, valid.nodup⟩
  exact valid.length.symm ▸ valid.inside d mem

theorem Valid.getElem?_inverse (inside : d < n) : p.inverse.images[d]? = some (p.preimage d) := by
  have size : p.size = n := valid.length
  simp [inverse, size, inside]

theorem Valid.image_inverse (inside : d < n) : p.inverse.image d = p.preimage d := by
  rw [image, getD_eq_getElem?_getD, valid.getElem?_inverse inside, Option.getD_some]

theorem valid_inverse : p.inverse.Valid n := by
  have size : p.size = n := valid.length
  refine ⟨by simp [inverse, size], ?_, ?_⟩
  · refine nodup_range.map_on fun d low e high same => ?_
    rw [mem_range, size] at low high
    rw [← valid.image_preimage low, same, valid.image_preimage high]
  · intro d mem
    obtain ⟨e, inside, rfl⟩ := mem_map.1 mem
    exact valid.preimage_lt (size ▸ mem_range.1 inside)

theorem Valid.readAt_preimage_image {y : List Rat} (length : y.length = n) :
    readAt ((range n).map p.preimage) (readAt ((range n).map p.image) y) = y := by
  refine ext_getElem (by simp [length]) fun d inside inside' => ?_
  have below : d < n := length ▸ inside'
  rw [← getD_eq_getElem _ 0 inside, ← getD_eq_getElem _ 0 inside',
    getD_readAt (d := p.preimage d) (by simp [below]),
    getD_readAt (d := d) (by simp [valid.preimage_lt below, valid.image_preimage below])]

theorem Valid.permute_eq {α : Type} {cs : List α} (length : cs.length = n) (a : α) :
    p.permute cs = .ok (((range n).map p.preimage).map (cs.getD · a)) := by
  have size : p.size = n := valid.length
  rw [permute, if_pos (by rw [length, size]), inverse, size, map_map]
  congr 1
  rw [filterMap_map, ← filterMap_eq_map]
  refine filterMap_congr fun d mem => ?_
  have within : p.preimage d < cs.length :=
    length.symm ▸ valid.preimage_lt (mem_range.1 mem)
  simp [getElem?_eq_getElem within]

theorem Valid.dot_permute {cs y : List Rat} (hc : cs.length = n) (hy : y.length = n) :
    dot (readAt ((range n).map p.preimage) cs) y =
      dot cs (readAt ((range n).map p.image) y) := by
  have reading {f : Nat → Nat} {i : Nat} (mem : i ∈ range n) x :
      (readAt ((range n).map f) x).getD i 0 = x.getD (f i) 0 :=
    getD_readAt (by simp [getElem?_range (mem_range.1 mem)]) x
  -- the sum over all `j` is taken in the order of the images `j = p i`
  rw [dot_eq_sum_range (by simp) hy, dot_eq_sum_range hc (by simp)]
  calc ((range n).map fun j =>
        (readAt ((range n).map p.preimage) cs).getD j 0 * y.getD j 0).sum
      = ((range n).map fun j => cs.getD (p.preimage j) 0 * y.getD j 0).sum :=
        congrArg _ (map_congr_left fun j mem => by rw [reading mem])
    _ = (p.images.map fun j => cs.getD (p.preimage j) 0 * y.getD j 0).sum :=
        (valid.perm.symm.map _).sum_eq
    _ = ((range n).map fun i => cs.getD i 0 * y.getD (p.image i) 0).sum := by
        rw [valid.images_eq, map_map]
        refine congrArg _ (map_congr_left fun i mem => ?_)
        simp only [Function.comp_apply, valid.preimage_image (mem_range.1 mem)]
    _ = ((range n).map fun i =>
          cs.getD i 0 * (readAt ((range n).map p.image) y).getD i 0).sum :=
        congrArg _ (map_congr_left fun i mem => by rw [reading mem])

end

variable {a b : Nat}

theorem Valid.swap (valid : p.Valid n) (ha : a < n) (hb : b < n) :
    ∃ q, p.swap a b = .ok q ∧ q.Valid n ∧ q.image a = p.image b ∧ q.image b = p.image a ∧
      ∀ i, i ≠ a → i ≠ b → q.image i = p.image i := by
  have within {i : Nat} inside : i < p.images.length := valid.length.symm ▸ inside
  have images {i : Nat} (inside : i < n) := valid.getElem?_images inside
  obtain ⟨withinA, valueA⟩ := List.getElem?_eq_some_iff.1 (images ha)
  obtain ⟨withinB, valueB⟩ := List.getElem?_eq_some_iff.1 (images hb)
  have perm := set_set_perm withinA withinB
  rw [valueA, valueB] at perm
  refine ⟨⟨(p.images.set a (p.image b)).set b (p.image a)⟩, ?_, ⟨?_, ?_, ?_⟩, ?_, ?_, ?_⟩
  · simp only [Permutation.swap, fetch, images ha, images hb]
    rfl
  · simpa using valid.length
  · exact perm.nodup_iff.2 valid.nodup
  · exact fun d mem => valid.inside d (perm.mem_iff.1 mem)
  · by_cases same : b = a
    · subst same
      simp [image, within hb]
    · simp [image, same, within ha]
  · simp [image, within hb]
  · intro i neA neB
    simp [image, neA.symm, neB.symm]

end Permutation

end Enclosure
