import Enclosure.Domain.Octagon
import Enclosure.Proofs.Intervals
import Enclosure.Proofs.Octagon.Saturation

/-!
# Queries on octagons

A point is in an octagon if it satisfies its matrix, unless the octagon is marked as empty.
-/

namespace Enclosure

open BoundMatrix

/-! ### The bounds of one dimension -/

theorem opposite_two_mul (d : Nat) : opposite (2 * d) = 2 * d + 1 := by
  unfold opposite
  split <;> omega

theorem nodeValue_two_mul (x : List Rat) (d : Nat) : nodeValue x (2 * d) = x.getD d 0 := by
  have even : 2 * d % 2 = 0 := Nat.mul_mod_right 2 d
  have dim : nodeDim (2 * d) = d := Nat.mul_div_cancel_left d two_pos
  rw [nodeValue, if_pos even, dim]

theorem ExtRat.fin_le_half {u : ExtRat} {q : Rat} : fin q ≤ u.half ↔ fin (2 * q) ≤ u := by
  simp only [fin_le_iff_forall, half_le_fin]
  constructor
  · intro h p le
    linarith [h (p / 2) (by rwa [mul_div_cancel₀ _ two_ne_zero])]
  · intro h p le
    linarith [h _ le]

theorem BoundMatrix.le_iff {m m' : BoundMatrix} {n : Nat} (square : m.IsSquare n) :
    m.le m' = true ↔ ∀ a < n, ∀ b < n, m.entry a b ≤ m'.entry a b := by
  simp only [le, allNodes, square.nodes, List.all_eq_true, List.mem_range, decide_eq_true_eq]

namespace Octagon

variable {request : Request} {o a b : Octagon} {x : List Rat}

def Contains (o : Octagon) (x : List Rat) : Prop :=
  o.empty = false ∧ x.length = o.space.size ∧ o.matrix.Holds x

/-- The matrix of an octagon that is not marked as empty is regular, and strongly closed if it
is marked as closed. -/
structure IsWellFormed (o : Octagon) : Prop where
  regular : o.empty = false → o.matrix.IsRegular o.space.size
  closed : o.empty = false → o.closed = true → o.matrix.IsStronglyClosed o.space.size

/-- The differences of two nodes over the rational points, integers or not. -/
def differences (o : Octagon) (i j : Nat) : Set Rat :=
  {r | ∃ x, o.Contains x ∧ nodeValue x i - nodeValue x j = r}

@[simp]
theorem space_close (o : Octagon) : o.close.space = o.space := by
  unfold close
  split
  · rfl
  · split <;> rfl

section

variable (formed : o.IsWellFormed) (real : o.space.ints = 0)
include formed real

theorem IsWellFormed.close_cases :
    (o.close.empty = true ∧ ∀ x, ¬ o.Contains x) ∨
      (o.close.empty = false ∧ o.close.matrix.IsStronglyClosed o.space.size ∧
        ∀ x, o.Contains x ↔ x.length = o.space.size ∧ o.close.matrix.Holds x) := by
  unfold close
  split
  · rename_i known
    cases empty : o.empty with
    | true => exact .inl ⟨rfl, fun x inside => by simp [Contains, empty] at inside⟩
    | false =>
      rw [empty, Bool.or_false] at known
      exact .inr ⟨rfl, formed.closed empty known, fun x => by simp [Contains, empty]⟩
  · rename_i unknown
    obtain ⟨-, empty⟩ : o.closed = false ∧ o.empty = false := by simpa using unknown
    have regular := formed.regular empty
    rw [regular.close?_of_real real]
    cases loop : o.matrix.shortest.hasNegativeLoop with
    | true =>
      -- a loop below zero bounds a difference of a node to itself by less than zero
      refine .inl ⟨rfl, fun x inside => ?_⟩
      have holds := (holds_shortest regular.square).2 inside.2.2
      exact not_holds_of_hasNegativeLoop loop x holds
    | false =>
      refine .inr ⟨empty, (regular.shortest loop).strengthen, fun x => ?_⟩
      change _ ↔ _ ∧ o.matrix.shortest.strengthen.Holds x
      rw [holds_strengthen regular.square.shortest, holds_shortest regular.square]
      simp [Contains, empty]

theorem IsWellFormed.close : o.close.IsWellFormed := by
  rcases formed.close_cases real with ⟨empty, -⟩ | ⟨-, closed, -⟩
  · constructor
    · exact fun nonempty => absurd empty (by simp [nonempty])
    · exact fun nonempty => absurd empty (by simp [nonempty])
  · rw [← space_close] at closed
    exact ⟨fun _ => closed.toIsRegular, fun _ _ => closed⟩

theorem IsWellFormed.empty_close_iff : o.close.empty = true ↔ ∀ x, ¬ o.Contains x := by
  rcases formed.close_cases real with ⟨empty, none⟩ | ⟨empty, closed, same⟩
  · exact iff_of_true empty none
  · refine iff_of_false (by simp [empty]) fun none => ?_
    obtain ⟨x, length, holds⟩ := closed.exists_point
    exact none x ((same x).2 ⟨length, holds⟩)

end

theorem IsWellFormed.within_iff (formed : a.IsWellFormed) (formed' : b.IsWellFormed)
    (same : a.space = b.space) (real : a.space.ints = 0) :
    a.within b = true ↔ ∀ x, a.Contains x → b.Contains x := by
  unfold within
  dsimp only
  rcases formed.close_cases real with ⟨empty, none⟩ | ⟨empty, closed, points⟩
  · rw [empty]
    exact iff_of_true rfl fun x inside => absurd inside (none x)
  · rw [empty, Bool.false_or, Bool.and_eq_true, Bool.not_eq_true', le_iff closed.square]
    constructor
    · rintro ⟨full, entries⟩ x inside
      obtain ⟨length, holds⟩ := (points x).1 inside
      refine ⟨full, length.trans (congrArg Space.size same), fun i j => ?_⟩
      by_cases within : i < 2 * a.space.size ∧ j < 2 * a.space.size
      · exact (holds i j).trans (entries i within.1 j within.2)
      · rw [same] at within
        rw [(formed'.regular full).square.entry_of_not_lt within]
        exact ExtRat.le_posInf _
    · intro included
      obtain ⟨x, length, holds⟩ := closed.exists_point
      refine ⟨(included x ((points x).2 ⟨length, holds⟩)).1, fun i left j right => ?_⟩
      -- a bound of the other octagon holds at all points, so it is not below the closed one
      refine ExtRat.le_iff_forall_fin.2 fun q bound => closed.bounds_of_forall left right ?_
      intro z length holds
      obtain ⟨-, -, holds'⟩ := included z ((points z).2 ⟨length, holds⟩)
      exact holds_iff.1 holds' i j q bound

theorem ensures_isLeq (formed : a.IsWellFormed) (formed' : b.IsWellFormed)
    (same : a.space = b.space) (real : a.space.ints = 0) :
    Op.Ensures request False (a.isLeq b) fun answer =>
      answer = true ↔ ∀ x, a.Contains x → b.Contains x := by
  rw [isLeq, requireSame, if_pos same]
  exact Op.ensures_pure (formed.within_iff formed' same real)

theorem ensures_boundDimension (formed : o.IsWellFormed) (real : o.space.ints = 0)
    {d : Nat} (inside : d < o.space.size) :
    Op.Ensures request False (o.boundDimension d) fun range =>
      ∀ q, range.Has q ↔ ∃ x, o.Contains x ∧ x.getD d 0 = q := by
  unfold boundDimension
  rcases formed.close_cases real with ⟨empty, none⟩ | ⟨empty, closed, points⟩
  · rw [if_pos empty]
    refine Op.ensures_pure fun q => iff_of_false Interval.not_spans_bottom ?_
    rintro ⟨x, inO, -⟩
    exact none x inO
  · rw [if_neg (by simp [empty]), if_neg (by simpa using inside)]
    refine Op.ensures_pure fun q => ?_
    -- twice the dimension is the difference of its two nodes
    have has : (Interval.ofExt (o.close.matrix.lower d) (o.close.matrix.upper d)).Has q ↔
        .fin (-(2 * q)) ≤ o.close.matrix.entry (opposite (2 * d)) (2 * d) ∧
          .fin (2 * q) ≤ o.close.matrix.entry (2 * d) (opposite (2 * d)) := by
      change o.close.matrix.lower d ≤ .fin q ∧ .fin q ≤ o.close.matrix.upper d ↔ _
      rw [lower, upper, ExtRat.neg_le_fin, ExtRat.fin_le_half,
        ExtRat.fin_le_half, mul_neg, opposite_two_mul]
    rw [has]
    constructor
    · rintro ⟨least, most⟩
      have even : 2 * d < 2 * o.space.size := Nat.mul_lt_mul_of_pos_left inside two_pos
      obtain ⟨x, length, holds, value⟩ :=
        closed.exists_holds even (opposite_lt.2 even) most least
      rw [nodeValue_opposite, nodeValue_two_mul] at value
      exact ⟨x, (points x).2 ⟨length, holds⟩, by linarith⟩
    · rintro ⟨x, inO, rfl⟩
      obtain ⟨-, holds⟩ := (points x).1 inO
      have least := holds (opposite (2 * d)) (2 * d)
      have most := holds (2 * d) (opposite (2 * d))
      rw [nodeValue_opposite, nodeValue_two_mul] at least most
      rw [← neg_add', ← two_mul] at least
      rw [sub_neg_eq_add, ← two_mul] at most
      exact ⟨least, most⟩

end Octagon

end Enclosure
