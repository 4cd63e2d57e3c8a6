import Enclosure.Proofs.Polyhedron.Lattice
import Enclosure.Proofs.Spaces

/-!
# Dimensions of polyhedra

Adding and reordering dimensions is exact.
-/

namespace Enclosure

open List SpaceChange Row Rows

namespace Rows

theorem keptOf_map (f : Nat → Bool) {x : List Rat} {n : Nat} (length : x.length = n) :
    keptOf ((range n).map f) x = readAt ((range n).filter f) x := by
  induction n generalizing f x with
  | zero => simp [keptOf, readAt]
  | succ n ih =>
    cases x with
    | nil => simp at length
    | cons v x =>
      have ih := ih (f ∘ .succ) (by simpa using length)
      have rest : readAt ((range n).map .succ |>.filter f) (v :: x) =
          readAt ((range n).filter (f ∘ .succ)) x := by
        simp [readAt, filter_map]
      rw [range_succ_eq_map, map_cons, map_map, keptOf, ih]
      cases first : f 0 with
      | false => rw [filter_cons_of_neg (by simp [first]), rest, if_neg Bool.false_ne_true]
      | true =>
        rw [filter_cons_of_pos first, ← rest]
        simp [readAt]

theorem count_map (f : Nat → Bool) (n : Nat) :
    ((range n).map f).count true = ((range n).filter f).length := by
  rw [count_eq_countP, countP_map, countP_eq_length_filter]
  simp [Function.comp_def]

theorem IsProjection.solves_iff_readAt {f : Nat → Bool} {n : Nat} {rows left : List Row}
    (h : IsProjection rows ((range n).map f) left) {z : List Rat}
    (length : z.length = ((range n).filter f).length) :
    Solves left z ↔
      ∃ x, x.length = n ∧ Solves rows x ∧ readAt ((range n).filter f) x = z := by
  rw [h.solves_iff z (length.trans (count_map f n).symm), length_map, length_range]
  refine exists_congr fun x => and_congr_right fun size => ?_
  rw [keptOf_map f size]

end Rows

namespace Polyhedron

open Rows (Solves)

variable {request : Request} {risk : Prop} {p : Polyhedron} {c : SpaceChange} {n d : Nat}
  {dims : List Nat} {y : List Rat} {perm : Permutation}

/-! ### Addition -/

theorem solves_zeroRows (inside : d < n) : Solves (zeroRows n d) y ↔ y.getD d 0 = 0 := by
  have unit : dot (unit n d) y = y.getD d 0 := by
    rw [unit, dot_set (by simpa using inside), dot_replicate_zero]
    simp
  rw [zeroRows, solves_cons, solves_cons, holdsAt_iff, holdsAt_iff,
    dot_map_neg, unit, le_antisymm_iff]
  simp [Under]

theorem solves_flatMap_zeroRows (inside : ∀ d ∈ dims, d < n) :
    Solves (dims.flatMap (zeroRows n)) y ↔ ∀ d ∈ dims, y.getD d 0 = 0 := by
  have each (d : Nat) mem : Solves (zeroRows n d) y ↔ y.getD d 0 = 0 :=
    solves_zeroRows (inside d mem)
  simp only [Solves, mem_flatMap, forall_exists_index, and_imp] at each ⊢
  exact ⟨fun h d mem => (each d mem).1 fun r inRows => h r d mem inRows,
    fun h r d mem inRows => (each d mem).2 (h d mem) r inRows⟩

theorem width_flatMap_zeroRows (dims : List Nat) :
    ∀ r ∈ dims.flatMap (zeroRows n), r.coeffs.length = n := by
  intro r mem
  obtain ⟨d, -, inRows⟩ := mem_flatMap.1 mem
  rcases mem_pair.1 inRows with rfl | rfl <;> simp [unit]

theorem ensures_addDimensions (fits : c.Inserts p.space) {project : Bool}
    (representable : project = true → ∀ d ∈ c.added, d ≤ noDimension) :
    Op.Ensures request risk (p.addDimensions c project) fun q =>
      q.space = p.space.grow c ∧ ∀ y, q.Contains y ↔ y.length = (p.space.grow c).size ∧
        p.Contains (readAt (c.shifts p.space.size) y) ∧
          (project = true → ∀ d ∈ c.added, y.getD d 0 = 0) := by
  have width : ∀ r ∈ p.rows.map fun r => { r with coeffs := c.insertInto 0 r.coeffs },
      r.coeffs.length = (p.space.grow c).size := by
    intro r mem
    obtain ⟨t, inRows, rfl⟩ := mem_map.1 mem
    rw [fits.size_grow, length_insertInto, p.wide t inRows]
  -- rows with zeros inserted read only the old dimensions, wherever they went
  have moved (y : List Rat) :
      Solves (p.rows.map fun r => { r with coeffs := c.insertInto 0 r.coeffs }) y ↔
        p.Contains (readAt (c.shifts p.space.size) y) := by
    have length : (readAt (c.shifts p.space.size) y).length = p.space.size := by
      simp [shifts]
    simp only [Solves, Contains, length, true_and, forall_mem_map, holdsAt_iff]
    refine forall₂_congr fun r mem => ?_
    rw [dot_insertInto, p.wide r mem]
  cases project with
  | false =>
    refine (ensures_make width).mono ?_
    rintro q ⟨space, rows⟩
    refine ⟨space, fun y => ?_⟩
    rw [Contains, space, rows, moved]
    simp
  | true =>
    have checked : c.checkedAdded = .ok c.added := by
      rw [checkedAdded, if_pos (by simpa using representable rfl)]
    have inside : ∀ d ∈ c.added, d < (p.space.grow c).size := fun d new => fits.added_lt new
    refine .ofExceptBind checked ?_
    rw [if_neg (by simpa using inside)]
    refine (ensures_make ?_).mono ?_
    · intro r mem
      exact (mem_append.1 mem).elim (width r) (width_flatMap_zeroRows _ r)
    · rintro q ⟨space, rows⟩
      refine ⟨space, fun y => ?_⟩
      rw [Contains, space, rows, solves_append, moved, solves_flatMap_zeroRows inside]
      simp

theorem ensures_removeDimensions (fits : c.Removes p.space) :
    Op.Ensures request request.Limited (p.removeDimensions c) fun q =>
      q.space = ⟨p.space.ints - c.ints, p.space.reals - c.reals⟩ ∧
        (∀ x, p.Contains x → q.Contains (readAt (c.kept p.space.size) x)) ∧
          (¬ request.Limited → ∀ y, q.Contains y →
            ∃ x, p.Contains x ∧ readAt (c.kept p.space.size) x = y) := by
  have inside : ¬ c.dims.any (p.space.size ≤ ·) = true := by simpa using fits.inside
  have kept : (c.kept p.space.size).length =
      Space.size ⟨p.space.ints - c.ints, p.space.reals - c.reals⟩ := fits.length_kept
  rw [removeDimensions, if_neg inside]
  refine .ofExceptBind fits.shrink_eq ?_
  refine (ensures_project (by simpa using p.wide)).bind fun result h => ?_
  cases result with
  | none =>
    -- all points of the smaller space, so only their length matters
    refine Op.ensures_pure ⟨rfl, fun x _ => ?_, fun free => absurd (h.1 rfl) free⟩
    simpa using kept
  | some left =>
    have projected := h.2 left rfl
    have width : ∀ r ∈ left, r.coeffs.length = (c.kept p.space.size).length :=
      fun r mem => (projected.width r mem).trans (count_map _ _)
    refine (ensures_make fun r mem => (width r mem).trans kept).mono ?_
    rintro q ⟨space, rows⟩
    refine ⟨space, fun x inside => ?_, fun _ y inside => ?_⟩
    · rw [Contains, space, rows]
      refine ⟨by rw [length_readAt, kept], ?_⟩
      exact (projected.solves_iff_readAt (by simp [SpaceChange.kept])).2
        ⟨x, inside.1, inside.2, rfl⟩
    · rw [Contains, space, rows] at inside
      obtain ⟨x, length, solves, same⟩ :=
        (projected.solves_iff_readAt (inside.1.trans kept.symm)).1 inside.2
      exact ⟨x, ⟨length, solves⟩, same⟩

/-! ### Reordering -/

def permuteRow (perm : Permutation) (n : Nat) (r : Row) : Row :=
  { r with coeffs := readAt ((range n).map perm.preimage) r.coeffs }

theorem mapM_permute (valid : perm.Valid n) {rows : List Row}
    (wide : ∀ r ∈ rows, r.coeffs.length = n) :
    (rows.mapM fun r => return { r with coeffs := ← perm.permute r.coeffs } :
      Except Failure (List Row)) = .ok (rows.map (permuteRow perm n)) := by
  induction rows with
  | nil => rfl
  | cons r rows ih =>
    rw [mapM_cons, valid.permute_eq (wide r (by simp)) 0,
      ih fun t mem => wide t (mem_cons_of_mem r mem)]
    rfl

theorem ensures_permuteDimensions (valid : perm.Valid p.space.size) :
    Op.Ensures request risk (p.permuteDimensions perm) fun q =>
      q.space = p.space ∧ ∀ y, q.Contains y ↔ y.length = p.space.size ∧
        p.Contains (readAt ((range p.space.size).map perm.image) y) := by
  have size : perm.size = p.space.size := valid.length
  rw [permuteDimensions, if_neg (by simp [size]), mapM_permute valid p.wide]
  refine (ensures_make ?_).mono ?_
  · intro r mem
    obtain ⟨t, -, rfl⟩ := mem_map.1 mem
    simp [permuteRow]
  · rintro q ⟨space, rows⟩
    refine ⟨space, fun y => ?_⟩
    rw [Contains, space, rows]
    refine and_congr_right fun length => ?_
    simp only [Contains, length_readAt, length_map, length_range, true_and, Solves,
      forall_mem_map, holdsAt_iff, permuteRow]
    refine forall₂_congr fun r mem => ?_
    rw [← valid.dot_permute (p.wide r mem) length]

/-! ### Forgetting -/

theorem length_refill (keep : List Bool) (cs : List Rat) :
    (refill keep cs).length = keep.length := by
  fun_induction refill keep cs <;> simp_all

theorem dot_refill {keep : List Bool} {cs : List Rat} (length : cs.length = keep.count true)
    (y : List Rat) : dot (refill keep cs) y = dot cs (keptOf keep y) := by
  induction keep generalizing cs y with
  | nil =>
    obtain rfl := eq_nil_of_length_eq_zero length
    simp [refill]
  | cons k keep ih =>
    cases k with
    | true =>
      cases cs with
      | nil => simp at length
      | cons c cs =>
        cases y with
        | nil => simp [keptOf]
        | cons v y => simp [refill, keptOf, ih (by simpa using length)]
    | false =>
      cases y with
      | nil => simp [keptOf]
      | cons v y => simp [refill, keptOf, ih (by simpa using length)]

theorem ensures_forgetRows {rows : List Row} (f : Nat → Bool)
    (wide : ∀ r ∈ rows, r.coeffs.length = n) :
    Op.Ensures request request.Limited (forgetRows rows ((range n).map f)) fun left =>
      (∀ r ∈ left, r.coeffs.length = n) ∧ ∀ y, y.length = n →
        ((∃ x, x.length = n ∧ Solves rows x ∧ ∀ d, f d = true → y.getD d 0 = x.getD d 0) →
          Solves left y) ∧
        (¬ request.Limited → Solves left y →
          ∃ x, x.length = n ∧ Solves rows x ∧ ∀ d, f d = true → y.getD d 0 = x.getD d 0) := by
  refine (ensures_project (by simpa using wide)).bind fun result h => ?_
  cases result with
  | none =>
    exact Op.ensures_pure
      ⟨by simp, fun y _ => ⟨fun _ => by simp, fun free => absurd (h.1 rfl) free⟩⟩
  | some left =>
    have projected := h.2 left rfl
    refine Op.ensures_pure ⟨?_, fun y length => ?_⟩
    · intro r mem
      obtain ⟨t, -, rfl⟩ := mem_map.1 mem
      simp [length_refill]
    have refilled : Solves (left.map fun r =>
        { r with coeffs := refill ((range n).map f) r.coeffs }) y ↔
          Solves left (readAt ((range n).filter f) y) := by
      simp only [Solves, forall_mem_map, holdsAt_iff]
      refine forall₂_congr fun r mem => ?_
      rw [dot_refill (projected.width r mem), keptOf_map f length]
    -- dimensions outside the space read as zero on both sides
    have agree {x : List Rat} (size : x.length = n) :
        readAt ((range n).filter f) x = readAt ((range n).filter f) y ↔
          ∀ d, f d = true → y.getD d 0 = x.getD d 0 := by
      simp only [readAt, map_inj_left, mem_filter, mem_range, and_imp]
      refine ⟨fun same d yes => ?_, fun same d _ yes => (same d yes).symm⟩
      by_cases inside : d < n
      · exact (same d inside yes).symm
      · rw [getD_eq_default _ _ (by omega), getD_eq_default _ _ (by omega)]
    rw [refilled, projected.solves_iff_readAt (by simp)]
    have same : (∃ x, x.length = n ∧ Solves rows x ∧
        readAt ((range n).filter f) x = readAt ((range n).filter f) y) ↔
          ∃ x, x.length = n ∧ Solves rows x ∧ ∀ d, f d = true → y.getD d 0 = x.getD d 0 :=
      exists_congr fun x => and_congr_right fun size => and_congr_right fun _ => agree size
    exact ⟨same.2, fun _ => same.1⟩

theorem ensures_forget (inside : ∀ d ∈ dims, d < p.space.size) (project : Bool) :
    Op.Ensures request request.Limited (p.forget dims project) fun q =>
      q.space = p.space ∧
        (∀ x y, p.Contains x → y.length = p.space.size →
          (∀ d, d ∉ dims → y.getD d 0 = x.getD d 0) →
          (project = true → ∀ d ∈ dims, y.getD d 0 = 0) → q.Contains y) ∧
        (¬ request.Limited → ∀ y, q.Contains y →
          (∃ x, p.Contains x ∧ ∀ d, d ∉ dims → y.getD d 0 = x.getD d 0) ∧
            (project = true → ∀ d ∈ dims, y.getD d 0 = 0)) := by
  have low : ¬ dims.any (p.space.size ≤ ·) = true := by simpa using inside
  rw [forget, if_neg low]
  refine (ensures_isBottom p).bind fun empty h => ?_
  cases empty with
  | true =>
    exact Op.ensures_pure ⟨rfl, fun x _ inside => absurd inside (h.1 rfl x),
      fun _ y inside => absurd inside (h.1 rfl y)⟩
  | false =>
    refine (ensures_forgetRows (!dims.contains ·) p.wide).bind fun kept left => ?_
    -- the forgotten columns are eliminated, and rows that make them zero are added if asked
    let zeros := if project then dims.flatMap (zeroRows p.space.size) else []
    have narrow : ∀ r ∈ zeros, r.coeffs.length = p.space.size := by
      cases project with
      | false => simp [zeros]
      | true => exact width_flatMap_zeroRows dims
    have zero (y : List Rat) : Solves zeros y ↔ (project = true → ∀ d ∈ dims, y.getD d 0 = 0) := by
      cases project with
      | false => simp [zeros]
      | true => simp [zeros, solves_flatMap_zeroRows inside]
    have wide : ∀ r ∈ tidy (kept ++ zeros), r.coeffs.length = p.space.size :=
      width_tidy fun r mem => (mem_append.1 mem).elim (left.1 r) (narrow r)
    refine (ensures_make wide).mono ?_
    rintro q ⟨space, rows⟩
    have inResult (y : List Rat) : q.Contains y ↔ y.length = p.space.size ∧ Solves kept y ∧
        (project = true → ∀ d ∈ dims, y.getD d 0 = 0) := by
      rw [Contains, space, rows, solves_tidy, solves_append, zero]
    simp only [contains_eq_mem, Bool.not_eq_true', decide_eq_false_iff_not] at left
    refine ⟨space, fun x y inside length same zeroed => ?_, fun free y inside => ?_⟩
    · exact (inResult y).2 ⟨length, (left.2 y length).1 ⟨x, inside.1, inside.2, same⟩, zeroed⟩
    · obtain ⟨length, solves, zeroed⟩ := (inResult y).1 inside
      obtain ⟨x, size, inside, same⟩ := (left.2 y length).2 free solves
      exact ⟨⟨x, ⟨size, inside⟩, same⟩, zeroed⟩

end Polyhedron

end Enclosure
