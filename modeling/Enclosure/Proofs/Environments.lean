import Enclosure.Proofs.Constraints
import Enclosure.Proofs.Spaces
import Mathlib.Data.String.Basic

/-!
# Dimensions named by environments

The variables of an environment are sorted and have no other place than the order of their names
gives them.
-/

namespace Enclosure

open List SpaceChange

/-! ### The order of names -/

theorem charactersBefore_iff {a b : List Char} : charactersBefore a b = true ↔ a < b := by
  induction a generalizing b with
  | nil => cases b <;> simp [charactersBefore]
  | cons c a ih =>
    cases b with
    | nil => simp [charactersBefore]
    | cons d b =>
      have order : c.toNat < d.toNat ↔ c < d := .rfl
      simp [charactersBefore, cons_lt_cons_iff, ih, order]

theorem nameBefore_iff {a b : String} : nameBefore a b = true ↔ a < b :=
  charactersBefore_iff.trans String.lt_iff_toList_lt.symm

theorem nameBefore_eq (a b : String) : nameBefore a b = decide (a < b) :=
  Bool.eq_iff_iff.2 (nameBefore_iff.trans decide_eq_true_iff.symm)

theorem insertName_eq (v : String) (names : List String) :
    insertName v names = names.orderedInsert (· ≤ ·) v := by
  induction names with
  | nil => rfl
  | cons w names ih =>
    rw [insertName, orderedInsert_cons, ih]
    by_cases before : w < v
    · rw [if_pos (nameBefore_iff.2 before), if_neg (not_le.2 before)]
    · rw [if_neg (nameBefore_iff.not.2 before), if_pos (not_lt.1 before)]

theorem sortNames_eq (names : List String) : sortNames names = names.insertionSort (· ≤ ·) := by
  induction names with
  | nil => rfl
  | cons v names ih =>
    change insertName v (sortNames names) = _
    rw [insertName_eq, ih, insertionSort_cons]

theorem perm_sortNames (names : List String) : (sortNames names).Perm names :=
  sortNames_eq names ▸ perm_insertionSort _ names

theorem sorted_sortNames {names : List String} (nodup : names.Nodup) :
    (sortNames names).Pairwise (· < ·) := by
  have sorted : (sortNames names).Pairwise (· ≤ ·) :=
    sortNames_eq names ▸ pairwise_insertionSort _ names
  have distinct : (sortNames names).Pairwise (· ≠ ·) := (perm_sortNames names).nodup_iff.2 nodup
  exact (sorted.and distinct).imp fun both => lt_of_le_of_ne both.1 both.2

/-! ### Places in sorted lists -/

section Places

variable {α : Type} [LinearOrder α] {old all : List α} {i : Nat}

theorem countP_lt_getElem (sorted : all.Pairwise (· < ·)) (inside : i < all.length) :
    all.countP (· < all[i]) = i := by
  have weakly : all.Pairwise (· ≤ ·) := sorted.imp le_of_lt
  rcases lt_trichotomy (all.countP (· < all[i])) i with less | same | more
  · have before := pairwise_iff_getElem.1 sorted _ i (less.trans inside) inside less
    exact absurd ((getElem_lt_iff weakly _ _).1 before) (lt_irrefl _)
  · exact same
  · exact absurd ((getElem_lt_iff weakly _ inside).2 more) (lt_irrefl _)

section

variable (part : old.Pairwise (· < ·)) (whole : all.Pairwise (· < ·)) (sub : old ⊆ all)
  (inside : i < old.length)
include part whole sub inside

theorem add_countP_eq :
    i + ((all.filter (· ∉ old)).map fun v => old.countP (· < v)).countP (· ≤ i) =
      all.countP (· < old[i]) := by
  have perm : (old ++ all.filter (· ∉ old)).Perm all := by
    have nodup : (old ++ all.filter (· ∉ old)).Nodup :=
      nodup_append'.2 ⟨part.nodup, whole.nodup.filter _, fun v mem => by simp [mem]⟩
    refine (perm_ext_iff_of_nodup nodup whole.nodup).2 fun v => ?_
    simp only [mem_append, mem_filter, decide_eq_true_eq]
    tauto
  rw [← perm.countP_eq, countP_append, countP_lt_getElem part inside, countP_map]
  refine congrArg _ (countP_congr fun v mem => ?_)
  have new : v ≠ old[i] := fun same => by
    simp only [mem_filter, decide_eq_true_eq] at mem
    exact mem.2 (same ▸ getElem_mem inside)
  have place := getElem_lt_iff (part.imp le_of_lt) v inside
  simp only [Function.comp_apply, decide_eq_true_eq]
  rw [← not_lt, ← place, not_lt, new.le_iff_lt]

theorem getElem?_add_countP :
    all[i + ((all.filter (· ∉ old)).map fun v => old.countP (· < v)).countP (· ≤ i)]? =
      some old[i] := by
  obtain ⟨j, within, value⟩ := mem_iff_getElem.1 (sub (getElem_mem inside))
  rw [add_countP_eq part whole sub inside, ← value, countP_lt_getElem whole within,
    getElem?_eq_getElem within]

end

end Places

/-! ### Environments -/

namespace Environment

variable {a b e f u : Environment} {v : String} {ρ : String → Rat} {xs ys : List String} {d : Nat}

/-- The variables of each type are sorted, and none is of both types. -/
structure IsValid (e : Environment) : Prop where
  ints : e.ints.Pairwise (· < ·)
  reals : e.reals.Pairwise (· < ·)
  disjoint : e.ints.Disjoint e.reals

/-- All variables are in the larger environment, with the same types. -/
structure Within (e larger : Environment) : Prop where
  ints : e.ints ⊆ larger.ints
  reals : e.reals ⊆ larger.reals

/-- The environment has the variables of both, and no others. -/
structure IsUnion (a b u : Environment) : Prop where
  valid : u.IsValid
  ints : ∀ v, v ∈ u.ints ↔ v ∈ a.ints ∨ v ∈ b.ints
  reals : ∀ v, v ∈ u.reals ↔ v ∈ a.reals ∨ v ∈ b.reals

def Clash (a b : Environment) (v : String) : Prop :=
  v ∈ a.ints ∧ v ∈ b.reals ∨ v ∈ a.reals ∧ v ∈ b.ints

def point (e : Environment) (ρ : String → Rat) : List Rat := e.vars.map ρ

def Admits (e : Environment) (ρ : String → Rat) : Prop := ∀ v ∈ e.ints, (ρ v).den = 1

theorem mem_vars : v ∈ e.vars ↔ v ∈ e.ints ∨ v ∈ e.reals := mem_append

theorem length_vars : e.vars.length = e.size := length_append

theorem IsValid.nodup (valid : e.IsValid) : e.vars.Nodup :=
  nodup_append'.2 ⟨valid.ints.nodup, valid.reals.nodup, valid.disjoint⟩

theorem IsValid.dimension?_eq_some_iff (valid : e.IsValid) :
    e.dimension? v = some d ↔ e.vars[d]? = some v := by
  rw [dimension?, idxOf?_eq_some_iff]
  constructor
  · rintro ⟨inside, rfl, -⟩
    exact getElem?_eq_getElem inside
  · intro found
    obtain ⟨inside, rfl⟩ := List.getElem?_eq_some_iff.1 found
    exact ⟨inside, rfl, fun i before same => before.ne ((valid.nodup.getElem_inj_iff).1 same)⟩

theorem mem_vars_of_dimension? (found : e.dimension? v = some d) : v ∈ e.vars :=
  isSome_idxOf?.1 (Option.isSome_of_eq_some found)

theorem dimension?_eq_none_iff : e.dimension? v = none ↔ v ∉ e.vars := idxOf?_eq_none_iff

@[simp]
theorem contains_iff : e.contains v = true ↔ v ∈ e.vars := isSome_idxOf?

theorem isInt?_eq_none_iff : e.isInt? v = none ↔ v ∉ e.vars := by
  rw [isInt?, Option.map_eq_none_iff, dimension?, idxOf?_eq_none_iff]

theorem isInt?_eq_true_iff : e.isInt? v = some true ↔ v ∈ e.ints := by
  rw [isInt?, Option.map_eq_some_iff]
  constructor
  · rintro ⟨d, found, integer⟩
    obtain ⟨-, rfl, -⟩ := idxOf?_eq_some_iff.1 found
    have low : d < e.ints.length := of_decide_eq_true integer
    simp only [vars, getElem_append_left low, getElem_mem]
  · intro mem
    obtain ⟨i, low, rfl⟩ := mem_iff_getElem.1 mem
    have known : e.ints[i] ∈ e.vars := mem_vars.2 (.inl mem)
    obtain ⟨d, found⟩ := Option.isSome_iff_exists.1 (isSome_idxOf?.2 known)
    refine ⟨d, found, decide_eq_true ?_⟩
    -- no place before the first one has the variable
    obtain ⟨_, _, first⟩ := idxOf?_eq_some_iff.1 found
    by_contra high
    have before : i < d := low.trans_le (not_lt.1 high)
    exact first i before (by simp only [vars, getElem_append_left low])

theorem IsValid.isInt?_eq_false_iff (valid : e.IsValid) :
    e.isInt? v = some false ↔ v ∈ e.reals := by
  constructor
  · intro real
    have known : v ∈ e.vars := by
      by_contra unknown
      simp [isInt?_eq_none_iff.2 unknown] at real
    refine (mem_vars.1 known).resolve_left fun integer => ?_
    simp [isInt?_eq_true_iff.2 integer] at real
  · intro mem
    cases typed : e.isInt? v with
    | none => exact absurd (mem_vars.2 (.inr mem)) (isInt?_eq_none_iff.1 typed)
    | some integer =>
      cases integer with
      | false => rfl
      | true => exact (valid.disjoint (isInt?_eq_true_iff.1 typed) mem).elim

theorem clashes_iff (ha : a.IsValid) (hb : b.IsValid) : a.clashes b v = true ↔ a.Clash b v := by
  have left := @isInt?_eq_true_iff a v
  have left' := ha.isInt?_eq_false_iff (v := v)
  have right := @isInt?_eq_true_iff b v
  have right' := hb.isInt?_eq_false_iff (v := v)
  rw [clashes, Clash, ← left, ← left', ← right, ← right']
  rcases a.isInt? v with _ | _ | _ <;> rcases b.isInt? v with _ | _ | _ <;> simp

theorem Within.vars (h : e.Within f) : e.vars ⊆ f.vars := by
  intro v mem
  exact mem_vars.2 ((mem_vars.1 mem).imp (@h.ints v) (@h.reals v))

theorem IsUnion.left (h : IsUnion a b u) : a.Within u where
  ints v mem := (h.ints v).2 (.inl mem)
  reals v mem := (h.reals v).2 (.inl mem)

theorem IsUnion.right (h : IsUnion a b u) : b.Within u where
  ints v mem := (h.ints v).2 (.inr mem)
  reals v mem := (h.reals v).2 (.inr mem)

theorem IsUnion.mem_vars_iff (h : IsUnion a b u) : v ∈ u.vars ↔ v ∈ a.vars ∨ v ∈ b.vars := by
  rw [mem_vars, mem_vars, mem_vars, h.ints, h.reals]
  tauto

theorem IsUnion.admits (h : IsUnion a b u) (left : a.Admits ρ) (right : b.Admits ρ) : u.Admits ρ :=
  fun v integer => ((h.ints v).1 integer).elim (left v) (right v)

private theorem sorted_merge {known : String → Bool} (hx : xs.Nodup) (hy : ys.Nodup)
    (all : ∀ v ∈ xs, known v = true) :
    (sortNames (xs ++ ys.filter (!known ·))).Pairwise (· < ·) := by
  refine sorted_sortNames (nodup_append'.2 ⟨hx, hy.filter _, fun v left right => ?_⟩)
  simp [all v left] at right

theorem union_cases (ha : a.IsValid) (hb : b.IsValid) :
    (∃ v, a.Clash b v ∧ a.union b = .error (.incompatibleEnvironment v)) ∨
      (∀ v, ¬ a.Clash b v) ∧ ∃ u, a.union b = .ok u ∧ IsUnion a b u := by
  cases found : b.vars.find? (clashes a b) with
  | some v =>
    refine .inl ⟨v, (clashes_iff ha hb).1 (find?_some found), ?_⟩
    rw [union, found]
  | none =>
    have none (v : String) : ¬ a.Clash b v := by
      intro clash
      have known : v ∈ b.vars := mem_vars.2 (clash.elim (.inr ·.2) (.inl ·.2))
      exact find?_eq_none.1 found v known ((clashes_iff ha hb).2 clash)
    obtain ⟨ints, reals⟩ : (∀ v, v ∈ sortNames (a.ints ++ b.ints.filter (!a.contains ·)) ↔
          v ∈ a.ints ∨ v ∈ b.ints) ∧
        ∀ v, v ∈ sortNames (a.reals ++ b.reals.filter (!a.contains ·)) ↔
          v ∈ a.reals ∨ v ∈ b.reals := by
      constructor <;> intro v <;> have apart := none v <;>
        simp only [(perm_sortNames _).mem_iff, mem_append, mem_filter, Clash,
          Bool.not_eq_true', Bool.eq_false_iff, ne_eq, contains_iff, mem_vars] at apart ⊢ <;>
        tauto
    refine .inr ⟨none, _, by rw [union, found], ⟨⟨?_, ?_, ?_⟩, ints, reals⟩⟩
    · exact sorted_merge ha.ints.nodup hb.ints.nodup fun v mem =>
        contains_iff.2 (mem_vars.2 (.inl mem))
    · exact sorted_merge ha.reals.nodup hb.reals.nodup fun v mem =>
        contains_iff.2 (mem_vars.2 (.inr mem))
    · intro v integer real
      rcases (ints v).1 integer with left | left <;> rcases (reals v).1 real with right | right
      · exact ha.disjoint left right
      · exact none v (.inl ⟨left, right⟩)
      · exact none v (.inr ⟨right, left⟩)
      · exact hb.disjoint left right

/-! ### Insertion -/

theorem Within.mem_vars_iff (h : e.Within f) (valid : f.IsValid) :
    (∀ v ∈ f.ints, v ∈ e.vars ↔ v ∈ e.ints) ∧ ∀ v ∈ f.reals, v ∈ e.vars ↔ v ∈ e.reals := by
  refine ⟨fun v integer => ?_, fun v real => ?_⟩
  · rw [mem_vars, or_iff_left fun real => valid.disjoint integer (h.reals real)]
  · rw [mem_vars, or_iff_right fun integer => valid.disjoint (h.ints integer) real]

private theorem filter_new (same : ∀ v ∈ ys, v ∈ e.vars ↔ v ∈ xs) :
    ys.filter (!e.contains ·) = ys.filter (· ∉ xs) := by
  refine filter_congr fun v mem => ?_
  rw [Bool.eq_iff_iff, Bool.not_eq_true', Bool.eq_false_iff, ne_eq, contains_iff, same v mem,
    decide_eq_true_iff]

private theorem length_add_filter (part : xs.Nodup) (whole : ys.Nodup) (sub : xs ⊆ ys) :
    xs.length + (ys.filter (· ∉ xs)).length = ys.length := by
  have inside : (ys.filter (· ∈ xs)).Perm xs :=
    (perm_ext_iff_of_nodup (whole.filter _) part).2 fun v => by
      simpa using @sub v
  rw [← inside.length_eq, length_eq_length_filter_add (l := ys) (· ∈ xs)]
  simp

private def places (e : Environment) (ints reals : List String) : List Nat :=
  ints.map (fun v => e.ints.countP (· < v)) ++
    reals.map fun v => e.ints.length + e.reals.countP (· < v)

section Places

variable {ints reals : List String}

private theorem sorted_places (hi : ints.Pairwise (· < ·)) (hr : reals.Pairwise (· < ·)) :
    (e.places ints reals).Pairwise (· ≤ ·) := by
  have grows (l : List String) {v w : String} before : l.countP (· < v) ≤ l.countP (· < w) :=
    countP_mono_left fun x _ less => by
      simp only [decide_eq_true_eq] at less ⊢
      exact less.trans before
  refine pairwise_append.2 ⟨?_, ?_, ?_⟩
  · exact pairwise_map.2 (hi.imp (grows _))
  · exact pairwise_map.2 (hr.imp fun before => Nat.add_le_add_left (grows _ before) _)
  · simp only [mem_map]
    rintro _ ⟨v, -, rfl⟩ _ ⟨w, -, rfl⟩
    exact countP_le_length.trans (Nat.le_add_right _ _)

private theorem places_le (mem : d ∈ e.places ints reals) : d ≤ e.space.size := by
  have atMost (l : List String) v : l.countP (· < v) ≤ l.length := countP_le_length
  simp only [places, mem_append, mem_map] at mem
  rcases mem with ⟨v, -, rfl⟩ | ⟨v, -, rfl⟩
  · exact (atMost _ v).trans (Nat.le_add_right _ _)
  · exact Nat.add_le_add_left (atMost _ v) _

private theorem countP_places_of_lt {i : Nat} (low : i < e.ints.length) :
    (e.places ints reals).countP (· ≤ i) =
      (ints.map fun v => e.ints.countP (· < v)).countP (· ≤ i) := by
  have none : (reals.map fun v => e.ints.length + e.reals.countP (· < v)).countP (· ≤ i) = 0 := by
    simp only [countP_eq_zero, mem_map, decide_eq_true_eq]
    omega
  rw [places, countP_append, none, Nat.add_zero]

private theorem countP_places_add (j : Nat) :
    (e.places ints reals).countP (· ≤ e.ints.length + j) =
      ints.length + (reals.map fun v => e.reals.countP (· < v)).countP (· ≤ j) := by
  have all : (ints.map fun v => e.ints.countP (· < v)).countP (· ≤ e.ints.length + j) =
      ints.length := by
    rw [countP_eq_length.2, length_map]
    simp only [mem_map, decide_eq_true_eq]
    rintro _ ⟨v, -, rfl⟩
    exact countP_le_length.trans (Nat.le_add_right _ _)
  rw [places, countP_append, all, countP_map, countP_map]
  simp only [Function.comp_def, Nat.add_le_add_iff_left]

end Places

structure Embeds (c : SpaceChange) (e f : Environment) : Prop where
  fits : c.Inserts e.space
  space : e.space.grow c = f.space
  moved : ∀ i < e.size, f.vars[c.shift i]? = e.vars[i]?

theorem embedding?_spec (he : e.IsValid) (hf : f.IsValid) (within : e.Within f) :
    ∃ c, e.embedding? f = some c ∧ Embeds c e f := by
  have typed : (e.vars.all fun v => f.isInt? v = e.isInt? v) = true := by
    refine all_eq_true.2 fun v mem => decide_eq_true ?_
    rcases mem_vars.1 mem with integer | real
    · rw [isInt?_eq_true_iff.2 integer, isInt?_eq_true_iff.2 (within.ints integer)]
    · rw [he.isInt?_eq_false_iff.2 real, hf.isInt?_eq_false_iff.2 (within.reals real)]
  obtain ⟨ints, reals⟩ := within.mem_vars_iff hf
  have countInts := length_add_filter he.ints.nodup hf.ints.nodup within.ints
  have countReals := length_add_filter he.reals.nodup hf.reals.nodup within.reals
  rw [embedding?, if_pos typed]
  simp only [nameBefore_eq, filter_new ints, filter_new reals]
  refine ⟨_, rfl, ⟨?_, ?_, fun d => places_le⟩, ?_, ?_⟩
  · simp
  · exact sorted_places (hf.ints.filter _) (hf.reals.filter _)
  · rw [Space.grow, space, space, countInts, countReals]
  intro i inside
  change f.vars[i + (e.places _ _).countP (· ≤ i)]? = _
  by_cases low : i < e.ints.length
  · have found := getElem?_add_countP he.ints hf.ints within.ints low
    rw [countP_places_of_lt low, vars, vars, getElem?_append_left low,
      getElem?_append_left (lt_of_getElem? found), found,
      getElem?_eq_getElem low]
  · obtain ⟨j, rfl⟩ := Nat.exists_eq_add_of_le (not_lt.1 low)
    have high : j < e.reals.length := Nat.lt_of_add_lt_add_left inside
    have found := getElem?_add_countP he.reals hf.reals within.reals high
    rw [countP_places_add, vars, vars, getElem?_append_right (Nat.le_add_right _ _),
      getElem?_append_right (by omega), Nat.add_sub_cancel_left,
      getElem?_eq_getElem high, ← found]
    congr 1
    omega

theorem getD_point (found : e.vars[d]? = some v) : (e.point ρ).getD d 0 = ρ v := by
  simp [point, found]

theorem length_point : (e.point ρ).length = e.space.size := by
  rw [point, length_map, length_vars]
  rfl

theorem isPoint_point : e.space.IsPoint (e.point ρ) ↔ e.Admits ρ := by
  constructor
  · intro isPoint v integer
    obtain ⟨d, low, rfl⟩ := mem_iff_getElem.1 integer
    have found : e.vars[d]? = some e.ints[d] := by
      rw [vars, getElem?_append_left low, getElem?_eq_getElem low]
    exact getD_point (ρ := ρ) found ▸ isPoint.integral d (decide_eq_true low)
  · intro admits
    refine ⟨length_point, fun d integer => ?_⟩
    have low : d < e.ints.length := of_decide_eq_true integer
    have found : e.vars[d]? = some e.ints[d] := by
      rw [vars, getElem?_append_left low, getElem?_eq_getElem low]
    exact getD_point found ▸ admits _ (getElem_mem low)

theorem Within.admits (within : e.Within f) (h : f.Admits ρ) : e.Admits ρ :=
  fun v integer => h v (within.ints integer)

theorem readAt_shifts_point {c : SpaceChange}
    (moved : ∀ i < e.size, f.vars[c.shift i]? = e.vars[i]?) :
    readAt (c.shifts e.size) (f.point ρ) = e.point ρ := by
  have length : e.vars.length = e.size := length_vars
  refine ext_getElem (by simp [shifts, point, length]) fun i inside within => ?_
  have known : i < e.vars.length := by simpa [point] using within
  have found := (moved i (length ▸ known)).trans (getElem?_eq_getElem known)
  rw [← getD_eq_getElem _ 0 inside, getD_readAt, getD_point found]
  · simp [point]
  · simp [shifts, ← length, known]

theorem set_map_vars {α : Type} (valid : e.IsValid) (found : e.vars[d]? = some v) (g : String → α)
    (a : α) : (e.vars.map g).set d a = e.vars.map (Function.update g v a) := by
  obtain ⟨_, rfl⟩ := List.getElem?_eq_some_iff.1 found
  refine ext_getElem (by simp) fun i left right => ?_
  simp only [getElem_set, getElem_map, Function.update_apply, valid.nodup.getElem_inj_iff, eq_comm]

theorem point_update (unknown : v ∉ e.vars) (q : Rat) :
    e.point (Function.update ρ v q) = e.point ρ :=
  map_congr_left fun _ mem => Function.update_of_ne (ne_of_mem_of_not_mem mem unknown) _ _

theorem exists_map_vars_eq {α : Type} (valid : e.IsValid) (fill : α) {u : List α}
    (length : u.length = e.size) : ∃ g, e.vars.map g = u := by
  refine ⟨fun v => u.getD (e.vars.idxOf v) fill, ?_⟩
  have size : e.vars.length = e.size := length_vars
  refine ext_getElem (by simp [size, length]) fun i left right => ?_
  simp [valid.nodup.idxOf_getElem, right]

/-! ### Removal -/

theorem mem_removal : d ∈ (e.removal f).dims ↔ ∃ v, e.vars[d]? = some v ∧ v ∉ f.vars := by
  simp only [removal, mem_map, mem_filter, Prod.exists, mem_zipIdx_iff_getElem?,
    Bool.not_eq_true', Bool.eq_false_iff, ne_eq, contains_iff]
  constructor
  · rintro ⟨v, d, ⟨found, new⟩, rfl⟩
    exact ⟨v, found, new⟩
  · rintro ⟨v, found, new⟩
    exact ⟨v, d, ⟨found, new⟩, rfl⟩

theorem sorted_removal : (e.removal f).dims.Pairwise (· < ·) := by
  have sub : (e.removal f).dims.Sublist (e.vars.zipIdx.map (·.2)) := filter_sublist.map _
  refine .sublist sub ?_
  rw [zipIdx_map_snd]
  exact pairwise_lt_range'

private theorem filter_contains (whole : xs.Pairwise (· < ·)) (part : ys.Pairwise (· < ·))
    (sub : ys ⊆ xs) (same : ∀ v ∈ xs, v ∈ f.vars ↔ v ∈ ys) : xs.filter f.contains = ys := by
  refine (whole.filter _).eq_of_mem_iff part fun v => ?_
  rw [mem_filter, contains_iff]
  exact ⟨fun both => (same v both.1).1 both.2, fun mem => ⟨sub mem, (same v (sub mem)).2 mem⟩⟩

theorem Within.filter_vars (within : f.Within e) (he : e.IsValid) (hf : f.IsValid) :
    e.ints.filter f.contains = f.ints ∧ e.reals.filter f.contains = f.reals := by
  obtain ⟨ints, reals⟩ := within.mem_vars_iff he
  exact ⟨filter_contains he.ints hf.ints within.ints ints,
    filter_contains he.reals hf.reals within.reals reals⟩

theorem Within.eq_of_isEmpty_removal (within : f.Within e) (he : e.IsValid) (hf : f.IsValid)
    (none : (e.removal f).isEmpty = true) : e = f := by
  have dims : (e.removal f).dims = [] := isEmpty_iff.1 none
  have known (v : String) (mem : v ∈ e.vars) : f.contains v = true := by
    by_contra new
    obtain ⟨d, found⟩ := getElem?_of_mem mem
    have gone := mem_removal.2 ⟨v, found, fun old => new (contains_iff.2 old)⟩
    simp [dims] at gone
  obtain ⟨ints, reals⟩ := within.filter_vars he hf
  rw [filter_eq_self.2 fun v mem => known v (mem_vars.2 (.inl mem))] at ints
  rw [filter_eq_self.2 fun v mem => known v (mem_vars.2 (.inr mem))] at reals
  exact (Environment.mk.injEq ..).mpr ⟨ints, reals⟩

theorem removeFrom_vars : (e.removal f).removeFrom e.vars = e.vars.filter f.contains := by
  have stays (p : String × Nat) (mem : p ∈ e.vars.zipIdx) :
      (!(e.removal f).drops p.2) = f.contains p.1 := by
    have found := mem_zipIdx_iff_getElem?.1 mem
    rw [Bool.eq_iff_iff, Bool.not_eq_true', Bool.eq_false_iff, ne_eq, drops,
      contains_iff_mem, mem_removal, found]
    simp
  rw [removeFrom, filter_congr stays]
  conv_rhs => rw [← zipIdx_map_fst 0 e.vars, filter_map]
  rfl

section

variable (he : e.IsValid) (hf : f.IsValid) (within : f.Within e)
include he hf within

theorem kept_vars : f.vars = ((e.removal f).kept e.size).map (e.vars.getD · "") := by
  obtain ⟨ints, reals⟩ := within.filter_vars he hf
  rw [← length_vars, ← removeFrom_eq, removeFrom_vars, vars, vars, filter_append, ints, reals]

theorem getElem?_kept {i d : Nat} (found : f.vars[i]? = some v) (place : e.vars[d]? = some v) :
    ((e.removal f).kept e.size)[i]? = some d := by
  rw [kept_vars he hf within, getElem?_map, Option.map_eq_some_iff] at found
  obtain ⟨k, kept, same⟩ := found
  have known : k < e.vars.length :=
    length_vars ▸ lt_of_mem_kept (mem_of_getElem? kept)
  rw [getD_eq_getElem _ _ known] at same
  rw [kept, (getElem?_inj known he.nodup).1
    (place.symm ▸ (getElem?_eq_getElem known).trans (congrArg some same))]

theorem removeFrom_map_vars {α : Type} (g : String → α) :
    (e.removal f).removeFrom (e.vars.map g) = f.vars.map g := by
  rw [removeFrom_eq _ (g ""), length_map, length_vars, kept_vars he hf within, map_map]
  simp

theorem removal_spec :
    (e.removal f).Removes e.space ∧
      Space.mk (e.space.ints - (e.removal f).ints) (e.space.reals - (e.removal f).reals) = f.space ∧
      ∀ ρ, readAt ((e.removal f).kept e.size) (e.point ρ) = f.point ρ := by
  obtain ⟨ints, reals⟩ := within.filter_vars he hf
  have count (xs : List String) :
      xs.length = (xs.filter f.contains).length + xs.countP (!f.contains ·) := by
    rw [length_eq_length_filter_add f.contains, countP_eq_length_filter]
  have countInts := count e.ints
  have countReals := count e.reals
  rw [ints] at countInts
  rw [reals] at countReals
  refine ⟨⟨?_, ?_, ?_, ?_, ?_⟩, ?_, fun ρ => ?_⟩
  · have all : (e.removal f).dims.length = e.vars.countP (!f.contains ·) := by
      rw [removal, length_map, ← countP_eq_length_filter,
        ← zipIdx_map_fst 0 e.vars, countP_map, zipIdx_map_fst]
      rfl
    rw [all, vars, countP_append]
    rfl
  · exact sorted_removal.nodup
  · intro d mem
    obtain ⟨v, found, -⟩ := mem_removal.1 mem
    exact (lt_of_getElem? found).trans_eq length_vars
  · exact countP_le_length
  · exact countP_le_length
  · change Space.mk (e.ints.length - e.ints.countP _) (e.reals.length - e.reals.countP _) = _
    rw [countInts, countReals, Nat.add_sub_cancel, Nat.add_sub_cancel]
    rfl
  · have left := removeFrom_map_vars he hf within ρ
    rwa [removeFrom_eq _ 0, length_map, length_vars] at left

end

/-! ### Making environments -/

variable {ints reals names : List String}

theorem firstRepeat?_eq_none_iff {names seen : List String} :
    firstRepeat? seen names = none ↔ names.Nodup ∧ names.Disjoint seen := by
  induction names generalizing seen with
  | nil => simp [firstRepeat?]
  | cons v names ih =>
    rw [firstRepeat?, nodup_cons, disjoint_cons_left]
    by_cases repeated : v ∈ seen
    · simp [repeated]
    · simp only [contains_iff_mem, repeated, if_false, ih, disjoint_cons_right]
      tauto

theorem make_eq_ok_iff : make ints reals = .ok e ↔
    (ints ++ reals).Nodup ∧ e = ⟨sortNames ints, sortNames reals⟩ := by
  have distinct := @firstRepeat?_eq_none_iff (ints ++ reals) []
  rw [and_iff_left (disjoint_nil_right _)] at distinct
  rw [← distinct, make]
  cases firstRepeat? [] (ints ++ reals) <;> simp [eq_comm]

theorem mem_of_make (made : make ints reals = .ok e) :
    (∀ v, v ∈ e.ints ↔ v ∈ ints) ∧ ∀ v, v ∈ e.reals ↔ v ∈ reals := by
  obtain ⟨-, rfl⟩ := make_eq_ok_iff.1 made
  exact ⟨fun v => (perm_sortNames ints).mem_iff, fun v => (perm_sortNames reals).mem_iff⟩

theorem isValid_of_make (made : make ints reals = .ok e) : e.IsValid := by
  obtain ⟨nodup, rfl⟩ := make_eq_ok_iff.1 made
  obtain ⟨hi, hr, apart⟩ := nodup_append'.1 nodup
  refine ⟨sorted_sortNames hi, sorted_sortNames hr, fun v integer real => ?_⟩
  exact apart ((perm_sortNames _).mem_iff.1 integer) ((perm_sortNames _).mem_iff.1 real)

theorem missing?_eq_none_iff : e.missing? names = none ↔ ∀ v ∈ names, v ∈ e.vars := by
  simp [missing?]

theorem rename_eq_ok_iff {old new : List String} {p : Permutation} :
    e.rename old new = .ok (f, p) ↔ old.length = new.length ∧ (∀ v ∈ old, v ∈ e.vars) ∧
      make (e.ints.map (renamed old new)) (e.reals.map (renamed old new)) = .ok f ∧
      p = ⟨e.vars.filterMap fun v => f.dimension? (renamed old new v)⟩ := by
  rw [rename, ← missing?_eq_none_iff]
  by_cases lengths : old.length = new.length
  · rw [if_neg (not_not.2 lengths)]
    cases e.missing? old with
    | some v => simp
    | none =>
      cases make (e.ints.map (renamed old new)) (e.reals.map (renamed old new)) with
      | ok g =>
        simp only [Except.ok.injEq, Prod.mk.injEq, lengths, true_and]
        exact and_congr_right fun same => same ▸ eq_comm
      | error failure => cases failure <;> simp
  · simp [lengths]

theorem remove_eq_ok_iff : e.remove names = .ok f ↔ (∀ v ∈ names, v ∈ e.vars) ∧
    f = ⟨e.ints.filter (!names.contains ·), e.reals.filter (!names.contains ·)⟩ := by
  rw [remove, ← missing?_eq_none_iff]
  cases e.missing? names <;> simp [eq_comm]

theorem remove_spec (valid : e.IsValid) (known : ∀ v ∈ names, v ∈ e.vars) :
    ∃ f, e.remove names = .ok f ∧ f.IsValid ∧ f.Within e ∧
      ∀ v, v ∈ f.vars ↔ v ∈ e.vars ∧ v ∉ names := by
  refine ⟨_, remove_eq_ok_iff.2 ⟨known, rfl⟩, ⟨valid.ints.filter _, valid.reals.filter _, ?_⟩,
    ⟨?_, ?_⟩, ?_⟩
  · exact fun v integer real =>
      valid.disjoint (mem_of_mem_filter integer) (mem_of_mem_filter real)
  · exact filter_subset_self _
  · exact filter_subset_self _
  · simp [mem_vars, or_and_right]

theorem remove_dims_spec (valid : e.IsValid) (dims : List Nat) :
    ∃ f, e.remove (dims.filterMap e.var?) = .ok f ∧ f.IsValid ∧ f.Within e ∧
      ∀ d v, e.vars[d]? = some v → (v ∈ f.vars ↔ d ∉ dims) := by
  have known : ∀ v ∈ dims.filterMap e.var?, v ∈ e.vars := by
    intro v mem
    obtain ⟨d, -, place⟩ := mem_filterMap.1 mem
    exact mem_of_getElem? place
  obtain ⟨f, removed, valid', within, vars⟩ := remove_spec valid known
  refine ⟨f, removed, valid', within, fun d v place => ?_⟩
  rw [vars, mem_filterMap]
  constructor
  · exact fun kept mem => kept.2 ⟨d, mem, place⟩
  · refine fun other => ⟨mem_of_getElem? place, ?_⟩
    rintro ⟨_, mem, place'⟩
    have inside := lt_of_getElem? place
    obtain rfl := (getElem?_inj inside valid.nodup).1 (place.trans place'.symm)
    exact other mem

end Environment

end Enclosure
