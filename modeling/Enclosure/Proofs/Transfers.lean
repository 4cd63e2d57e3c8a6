import Enclosure.Proofs.Environments

/-!
# Moving between environments

Two environments that agree on the types of their variables have a least common one.
-/

namespace Enclosure

open List SpaceChange

namespace Environment

variable {a e f : Environment} {v : String} {c : SpaceChange}

/-! ### Insertion -/

namespace Embeds

theorem size_eq (h : Embeds c e f) : f.size = e.size + c.dims.length := by
  rw [size, ← h.space, h.fits.size_grow]
  rfl

theorem getElem?_vars_shift (h : Embeds c e f) {i : Nat} (found : e.vars[i]? = some v) :
    f.vars[c.shift i]? = some v :=
  (h.moved i (length_vars ▸ lt_of_getElem? found)).trans found

theorem mem_added_iff (h : Embeds c e f) (hf : f.IsValid) {j : Nat} :
    j ∈ c.added ↔ ∃ v, f.vars[j]? = some v ∧ v ∉ e.vars := by
  constructor
  · intro new
    have inside : j < f.vars.length := by
      rw [length_vars, size, ← h.space]
      exact h.fits.added_lt new
    refine ⟨f.vars[j], getElem?_eq_getElem inside, fun old => ?_⟩
    obtain ⟨i, found⟩ := getElem?_of_mem old
    -- the variable would have a second dimension, where its old one moved
    have moved := (h.getElem?_vars_shift found).trans (getElem?_eq_getElem inside).symm
    obtain rfl := (getElem?_inj inside hf.nodup).1 moved.symm
    exact shift_notMem_added h.fits.sorted i new
  · rintro ⟨v, found, new⟩
    have inside : j < (e.space.grow c).size := by
      rw [h.space]
      exact (lt_of_getElem? found).trans_eq length_vars
    refine (h.fits.mem_added_or_eq_shift inside).resolve_right ?_
    rintro ⟨i, old, rfl⟩
    exact new (mem_of_getElem? ((h.moved i old).symm.trans found))

theorem insertInto_vars {α : Type} (h : Embeds c e f) (hf : f.IsValid) (fill : α) (g : String → α) :
    c.insertInto fill (e.vars.map g) = f.vars.map fun v => if v ∈ e.vars then g v else fill := by
  have length : (e.vars.map g).length = e.size := by rw [length_map, length_vars]
  refine ext_getElem ?_ fun j left right => ?_
  · rw [length_insertInto, length, length_map, length_vars, h.size_eq]
  rcases getElem?_insertInto h.fits.sorted (length.symm ▸ h.fits.reach)
      (getElem?_eq_getElem left) with ⟨i, value, rfl⟩ | ⟨same, new⟩
  · obtain ⟨v, found, same⟩ := Option.map_eq_some_iff.1 (getElem?_map ▸ value)
    obtain ⟨_, place⟩ := List.getElem?_eq_some_iff.1 (h.getElem?_vars_shift found)
    rw [getElem_map, place, if_pos (mem_of_getElem? found), same]
  · obtain ⟨v, found, unknown⟩ := (h.mem_added_iff hf).1 new
    obtain ⟨_, place⟩ := List.getElem?_eq_some_iff.1 found
    rw [getElem_map, place, if_neg unknown, same]

end Embeds

end Environment

/-! ### Transfers -/

/-- The list with `fill` at the dimensions that are added, and then without those that are
removed. -/
def Transfer.move {α : Type} (t : Transfer) (fill : α) (u : List α) : List α :=
  let enlarged := t.add.elim u (·.insertInto fill u)
  t.remove.elim enlarged (·.removeFrom enlarged)

namespace Environment

variable {a b e u : Environment} {v : String} {c : SpaceChange}

theorem elim_proper {β : Type} {g : SpaceChange → β} {x : β} (none : c.isEmpty = true → g c = x) :
    (proper (some c)).elim x g = g c := by
  cases empty : c.isEmpty with
  | true => simp [proper, Option.filter, empty, none empty]
  | false => simp [proper, Option.filter, empty]

theorem eq_of_proper {c' : SpaceChange} (found : proper (some c) = some c') : c' = c := by
  rw [proper, Option.filter_eq_some_iff] at found
  exact (Option.some.inj found.1).symm

theorem transfer_spec (ha : a.IsValid) (hb : b.IsValid) (agree : ∀ v, ¬ a.Clash b v) :
    ∃ t, a.transfer b = .ok t ∧
      (∀ c, t.add = some c ∨ t.remove = some c → SpaceChange.make c.dims c.ints c.reals = .ok c) ∧
      ∀ {α : Type} (fill : α) (g : String → α),
        t.move fill (a.vars.map g) = b.vars.map fun v => if v ∈ a.vars then g v else fill := by
  rcases union_cases ha hb with ⟨v, clash, -⟩ | ⟨-, u, union, least⟩
  · exact absurd clash (agree v)
  obtain ⟨c, found, embeds⟩ := embedding?_spec ha least.valid least.left
  refine ⟨⟨proper (some c), proper (some (u.removal b))⟩, ?_, ?_, fun fill g => ?_⟩
  · rw [transfer, union, ← found]
    rfl
  · -- both changes list their dimensions in order, and a proper one is the change itself
    rintro _ (add | remove)
    · rw [eq_of_proper add]
      exact make_eq embeds.fits.counts embeds.fits.sorted
    · rw [eq_of_proper remove]
      exact make_eq (removal_spec least.valid hb least.right).1.counts (sorted_removal.imp le_of_lt)
  · have enlarged := elim_proper (c := c) (g := (·.insertInto fill (a.vars.map g)))
      fun none => insertInto_of_isEmpty none fill _
    simp only [Transfer.move, enlarged, embeds.insertInto_vars least.valid]
    rw [elim_proper fun none => removeFrom_of_isEmpty none _,
      removeFrom_map_vars least.valid hb least.right]

theorem getElem?_map_vars {α : Type} (valid : e.IsValid) (g : String → α) {d : Nat}
    (found : e.dimension? v = some d) : (e.vars.map g)[d]? = some (g v) := by
  rw [getElem?_map, valid.dimension?_eq_some_iff.1 found, Option.map_some]

/-- Between environments that agree on the types of their variables every value moves to the
dimension of the same variable, and the others are filled in. -/
theorem values_follow_variables (ha : a.IsValid) (hb : b.IsValid) :
    ((∀ v, ¬ a.Clash b v) → ∃ t, a.transfer b = .ok t ∧
      (∀ c, t.add = some c ∨ t.remove = some c → SpaceChange.make c.dims c.ints c.reals = .ok c) ∧
      ∀ {α : Type} (fill : α) (u : List α), u.length = a.size →
        (t.move fill u).length = b.size ∧
        (∀ v i j, a.dimension? v = some i → b.dimension? v = some j →
          (t.move fill u)[j]? = u[i]?) ∧
        ∀ v j, a.dimension? v = none → b.dimension? v = some j →
          (t.move fill u)[j]? = some fill) ∧
    (a.Within b → ∃ c, a.embedding? b = some c ∧
      SpaceChange.make c.dims c.ints c.reals = .ok c ∧
      (∀ v i, a.dimension? v = some i → (c.shifts a.size)[i]? = b.dimension? v) ∧
      (c.added.Pairwise (· < ·) ∧
        ∀ d, d ∈ c.added ↔ ∃ v, a.dimension? v = none ∧ b.dimension? v = some d) ∧
      ∀ r : SpaceChange, r.dims = c.added →
        (∀ i j : Nat, (r.positions b.size)[j]? = some (some i) ↔ (c.shifts a.size)[i]? = some j) ∧
        ∀ j : Nat, (r.positions b.size)[j]? = some none ↔ j ∈ c.added) := by
  constructor
  · intro agree
    obtain ⟨t, transfer, made, moved⟩ := transfer_spec ha hb agree
    refine ⟨t, transfer, made, fun fill u length => ?_⟩
    -- the list is read as values of the variables of the first environment
    obtain ⟨g, rfl⟩ := exists_map_vars_eq ha fill length
    rw [moved]
    refine ⟨?_, fun v i j old new => ?_, fun v j unknown new => ?_⟩
    · rw [List.length_map, length_vars]
    · rw [getElem?_map_vars hb _ new, getElem?_map_vars ha g old,
        if_pos (mem_vars_of_dimension? old)]
    · rw [getElem?_map_vars hb _ new, if_neg (dimension?_eq_none_iff.1 unknown)]
  · intro within
    obtain ⟨c, found, embeds⟩ := embedding?_spec ha hb within
    have sorted := embeds.fits.sorted
    refine ⟨c, found, SpaceChange.make_eq embeds.fits.counts sorted, fun v i old => ?_,
      ⟨SpaceChange.sorted_added sorted, fun d => ?_⟩, fun r new => ⟨fun i j => ?_, fun j => ?_⟩⟩
    · have place := ha.dimension?_eq_some_iff.1 old
      have inside : i < a.size := length_vars ▸ (List.getElem?_eq_some_iff.1 place).1
      rw [hb.dimension?_eq_some_iff.2 (embeds.getElem?_vars_shift place)]
      simp [SpaceChange.shifts, inside]
    · simp only [embeds.mem_added_iff hb, hb.dimension?_eq_some_iff, dimension?_eq_none_iff]
      exact exists_congr fun v => and_comm
    · rw [SpaceChange.getElem?_positions_eq_some, size, ← embeds.space,
        embeds.fits.kept_eq_shifts new]
      rfl
    · rw [SpaceChange.getElem?_positions_eq_none, new, and_iff_right_iff_imp, size, ← embeds.space]
      exact embeds.fits.added_lt

/-- Four numbers are moved to an environment that shares two of their variables. -/
theorem values_moved_by_name :
    let a : Environment := ⟨["b", "d"], ["a", "z"]⟩
    let b : Environment := ⟨["c", "d", "e"], ["a", "m"]⟩
    let s : Environment := ⟨["b", "c", "d"], ["a", "y", "z"]⟩
    (a.IsValid ∧ b.IsValid ∧ s.IsValid) ∧
    ((∀ v, ¬ a.Clash b v) ∧ ∃ t, a.transfer b = .ok t ∧ (t.move 0 [1, 2, 3, 4]).length = 5 ∧
      (t.move 0 [1, 2, 3, 4])[3]? = some 3 ∧ (t.move 0 [1, 2, 3, 4])[2]? = some 0) ∧
    a.Within s ∧ ∃ c, a.embedding? s = some c ∧ (c.shifts 4)[3]? = some 5 ∧ 4 ∈ c.added ∧
      (SpaceChange.positions ⟨c.added, c.ints, c.reals⟩ 6)[5]? = some (some 3) := by
  intro a b s
  have apart {xs ys : List String} (none : ∀ v ∈ xs, v ∉ ys) : xs.Disjoint ys := none
  have valid : a.IsValid ∧ b.IsValid ∧ s.IsValid :=
    ⟨⟨by decide, by decide, apart (by decide)⟩, ⟨by decide, by decide, apart (by decide)⟩,
      ⟨by decide, by decide, apart (by decide)⟩⟩
  have agree (v : String) : ¬ a.Clash b v := by
    rintro (⟨integer, real⟩ | ⟨real, integer⟩)
    · exact apart (by decide : ∀ v ∈ a.ints, v ∉ b.reals) integer real
    · exact apart (by decide : ∀ v ∈ a.reals, v ∉ b.ints) real integer
  have within : a.Within s := ⟨by decide, by decide⟩
  obtain ⟨t, transfer, -, moved⟩ := (values_follow_variables valid.1 valid.2.1).1 agree
  obtain ⟨c, found, -, old, ⟨-, new⟩, back⟩ := (values_follow_variables valid.1 valid.2.2).2 within
  obtain ⟨length, common, filled⟩ := moved (0 : Nat) [1, 2, 3, 4] rfl
  have place : (c.shifts 4)[3]? = some 5 := old "z" 3 (by decide)
  refine ⟨valid, ⟨agree, t, transfer, length, common "a" 2 3 (by decide) (by decide),
    filled "e" 2 (by decide) (by decide)⟩, within, c, found, place,
    (new 4).2 ⟨"y", by decide, by decide⟩, ((back _ rfl).1 3 5).2 place⟩

end Environment

end Enclosure
