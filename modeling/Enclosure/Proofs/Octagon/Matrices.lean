import Enclosure.Domain.Octagon.Matrix
import Enclosure.Proofs.ExtendedRationals
import Mathlib.Tactic.Linarith
import Mathlib.Tactic.Ring

/-!
# Bounds on the differences of nodes

The value of a node at a point is the value of its dimension or the opposite, and a point satisfies
a matrix if no difference of two nodes is above its entry.
-/

namespace Enclosure

variable {a b n : Nat} {x : List Rat} {p q : Rat}

/-! ### Nodes -/

@[simp]
theorem opposite_opposite (a : Nat) : opposite (opposite a) = a := by
  unfold opposite
  split <;> split <;> omega

@[simp]
theorem nodeDim_opposite (a : Nat) : nodeDim (opposite a) = nodeDim a := by
  unfold opposite nodeDim
  split <;> omega

@[simp]
theorem opposite_lt : opposite a < 2 * n ↔ a < 2 * n := by
  unfold opposite
  split <;> omega

theorem eq_or_eq_opposite (h : nodeDim a = nodeDim b) : a = b ∨ a = opposite b := by
  unfold nodeDim at h
  unfold opposite
  split <;> omega

theorem nodeDim_lt : nodeDim a < n ↔ a < 2 * n := by
  unfold nodeDim
  omega

def nodeValue (x : List Rat) (a : Nat) : Rat :=
  if a % 2 = 0 then x.getD (nodeDim a) 0 else -x.getD (nodeDim a) 0

@[simp]
theorem nodeValue_opposite (x : List Rat) (a : Nat) :
    nodeValue x (opposite a) = -nodeValue x a := by
  have parity : opposite a % 2 = 0 ↔ ¬ a % 2 = 0 := by
    unfold opposite
    split <;> omega
  unfold nodeValue
  rw [nodeDim_opposite, if_congr parity rfl rfl, ite_not]
  split
  · rfl
  · exact (neg_neg _).symm

/-! ### Rationals above bounds -/

namespace ExtRat

variable {u v : ExtRat}

theorem fin?_eq_some : u.fin? = some q ↔ u = fin q := by
  cases u <;> simp [fin?]

theorem min_le_fin : u.min v ≤ fin q ↔ u ≤ fin q ∨ v ≤ fin q := by
  rw [min_eq, min_le_iff]

@[simp]
theorem posInf_boundSum (v : ExtRat) : posInf.boundSum v = posInf := by
  cases v <;> rfl

@[simp]
theorem boundSum_posInf (u : ExtRat) : u.boundSum posInf = posInf := by
  cases u <;> rfl

theorem boundSum_le_fin : u.boundSum v ≤ fin q ↔ ∃ p, u ≤ fin p ∧ v ≤ fin (q - p) := by
  cases u with
  | negInf =>
    cases v with
    | negInf => exact iff_of_true (negInf_le _) ⟨0, negInf_le _, negInf_le _⟩
    | fin s => exact iff_of_true (negInf_le _) ⟨q - s, negInf_le _, by simp⟩
    | posInf => simp
  | fin r =>
    cases v with
    | negInf => exact iff_of_true (negInf_le _) ⟨r, le_refl _, negInf_le _⟩
    | fin s =>
      simp only [boundSum, add?, Option.getD_some, fin_le_fin]
      constructor
      · exact fun h => ⟨r, le_refl r, by linarith⟩
      · rintro ⟨p, _, _⟩
        linarith
    | posInf => simp
  | posInf => cases v <;> simp

theorem half_le_fin : u.half ≤ fin q ↔ u ≤ fin (2 * q) := by
  have positive : 0 < mkRat 1 2 := by norm_num
  have value : mkRat 1 2 = (1 / 2) := by norm_num
  rw [half, mul_comm, pos_mul positive, value]
  cases u with
  | negInf => simp
  | fin p =>
    rw [fin_le_fin, fin_le_fin]
    constructor <;> intro h <;> linarith
  | posInf => simp

theorem boundSum_ne_negInf (left : u ≠ negInf) (right : v ≠ negInf) : u.boundSum v ≠ negInf := by
  cases u <;> cases v <;> simp_all [boundSum, add?]

theorem min_ne_negInf (left : u ≠ negInf) (right : v ≠ negInf) : u.min v ≠ negInf := by
  unfold ExtRat.min
  split
  · exact right
  · exact left

theorem half_ne_negInf (h : u ≠ negInf) : u.half ≠ negInf := by
  cases u with
  | negInf => exact absurd rfl h
  | fin q => simp [half, mul]
  | posInf => decide

end ExtRat

namespace BoundMatrix

variable {m : BoundMatrix} {k : Nat} {f : Nat → Nat → ExtRat} {g : Nat → Nat → ExtRat → ExtRat}

/-! ### Entries -/

/-- There are as many rows, and entries in each row, as nodes. -/
structure IsSquare (m : BoundMatrix) (n : Nat) : Prop where
  nodes : m.nodes = n
  columns : ∀ row ∈ m.rows, row.length = n

theorem isSquare_ofFn (n : Nat) (f : Nat → Nat → ExtRat) : (ofFn n f).IsSquare n := by
  constructor
  · simp [ofFn, nodes]
  · simp [ofFn]

theorem entry_ofFn : (ofFn n f).entry a b = if a < n ∧ b < n then f a b else .posInf := by
  unfold ofFn entry
  by_cases row : a < n <;> by_cases column : b < n <;> simp [row, column]

section

variable (square : m.IsSquare n)
include square

theorem IsSquare.entry_of_not_lt (outside : ¬ (a < n ∧ b < n)) : m.entry a b = .posInf := by
  unfold entry
  by_cases row : a < m.rows.length
  · have column : n ≤ b := not_lt.1 fun below => outside ⟨square.nodes ▸ row, below⟩
    rw [List.getElem?_eq_getElem row, Option.getD_some, List.getElem?_eq_none, Option.getD_none]
    rwa [square.columns _ (List.getElem_mem row)]
  · simp [List.getElem?_eq_none (not_lt.1 row)]

theorem IsSquare.mapEntries (g : Nat → Nat → ExtRat → ExtRat) : (m.mapEntries g).IsSquare n :=
  square.nodes ▸ isSquare_ofFn m.nodes fun a b => g a b (m.entry a b)

theorem IsSquare.entry_mapEntries (outside : ¬ (a < n ∧ b < n) → g a b .posInf = .posInf) :
    (m.mapEntries g).entry a b = g a b (m.entry a b) := by
  unfold BoundMatrix.mapEntries
  rw [entry_ofFn, square.nodes]
  split
  · rfl
  · rename_i out
    rw [square.entry_of_not_lt out, outside out]

theorem IsSquare.mapEntries_eq (same : ∀ a < n, ∀ b < n, g a b (m.entry a b) = m.entry a b) :
    m.mapEntries g = m := by
  have changed := square.mapEntries g
  have rows : (m.mapEntries g).rows = m.rows := by
    refine List.ext_getElem (changed.nodes.trans square.nodes.symm) fun a left right => ?_
    have row : a < n := square.nodes ▸ right
    have width := square.columns _ (List.getElem_mem right)
    refine List.ext_getElem ?_ fun b left' right' => ?_
    · rw [changed.columns _ (List.getElem_mem left), width]
    · have entry := (square.entry_mapEntries fun out => absurd ⟨row, width ▸ right'⟩ out).trans
        (same a row b (width ▸ right'))
      simpa [BoundMatrix.entry, left, right, left', right'] using entry
  exact congrArg BoundMatrix.mk rows

theorem IsSquare.ext {m' : BoundMatrix} (square' : m'.IsSquare n)
    (same : ∀ a < n, ∀ b < n, m.entry a b = m'.entry a b) : m = m' := by
  calc m = m.mapEntries fun a b _ => m'.entry a b :=
        (square.mapEntries_eq fun a row b column => (same a row b column).symm).symm
    _ = m'.mapEntries fun a b _ => m'.entry a b := by
        rw [BoundMatrix.mapEntries, BoundMatrix.mapEntries, square.nodes, square'.nodes]
    _ = m' := square'.mapEntries_eq fun _ _ _ _ => rfl

end

def Bounds (m : BoundMatrix) (a b : Nat) (q : Rat) : Prop := m.entry a b ≤ .fin q

theorem Bounds.mono (h : m.Bounds a b p) (le : p ≤ q) : m.Bounds a b q :=
  le_trans h (ExtRat.fin_le_fin.2 le)

section

variable (square : m.IsSquare n)
include square

theorem IsSquare.lt_of_bounds (h : m.Bounds a b q) : a < n ∧ b < n := by
  by_contra outside
  rw [Bounds, square.entry_of_not_lt outside] at h
  exact ExtRat.not_posInf_le_fin h

/-! ### Steps -/

theorem IsSquare.entry_pivot (k : Nat) :
    (m.pivot k).entry a b = (m.entry a b).min ((m.entry a k).boundSum (m.entry k b)) := by
  refine square.entry_mapEntries fun outside => ?_
  by_cases row : a < n
  · rw [square.entry_of_not_lt fun inside => outside ⟨row, inside.2⟩, ExtRat.boundSum_posInf]
    rfl
  · rw [square.entry_of_not_lt fun inside => row inside.1, ExtRat.posInf_boundSum]
    rfl

theorem bounds_pivot : (m.pivot k).Bounds a b q ↔
    m.Bounds a b q ∨ ∃ p, m.Bounds a k p ∧ m.Bounds k b (q - p) := by
  rw [Bounds, square.entry_pivot, ExtRat.min_le_fin, ExtRat.boundSum_le_fin]
  rfl

theorem IsSquare.entry_strengthen : m.strengthen.entry a b =
    (m.entry a b).min ((m.entry a (opposite a)).boundSum (m.entry (opposite b) b)).half := by
  have infinite : ExtRat.posInf.min ExtRat.posInf.half = .posInf := by decide
  refine square.entry_mapEntries fun outside => ?_
  by_cases row : a < n
  · rwa [square.entry_of_not_lt fun inside => outside ⟨row, inside.2⟩, ExtRat.boundSum_posInf]
  · rwa [square.entry_of_not_lt fun inside => row inside.1, ExtRat.posInf_boundSum]

theorem bounds_strengthen : m.strengthen.Bounds a b q ↔
    m.Bounds a b q ∨ ∃ p, m.Bounds a (opposite a) p ∧ m.Bounds (opposite b) b (2 * q - p) := by
  rw [Bounds, square.entry_strengthen, ExtRat.min_le_fin, ExtRat.half_le_fin,
    ExtRat.boundSum_le_fin]
  rfl

end

/-! ### Points -/

def Holds (m : BoundMatrix) (x : List Rat) : Prop :=
  ∀ a b, .fin (nodeValue x a - nodeValue x b) ≤ m.entry a b

theorem holds_iff : m.Holds x ↔ ∀ a b q, m.Bounds a b q → nodeValue x a - nodeValue x b ≤ q :=
  forall₂_congr fun _ _ => ExtRat.fin_le_iff_forall

theorem holds_of_square (square : m.IsSquare n)
    (h : ∀ a < n, ∀ b < n, .fin (nodeValue x a - nodeValue x b) ≤ m.entry a b) : m.Holds x := by
  intro a b
  by_cases inside : a < n ∧ b < n
  · exact h a inside.1 b inside.2
  · rw [square.entry_of_not_lt inside]
    exact ExtRat.le_posInf _

end BoundMatrix

end Enclosure
