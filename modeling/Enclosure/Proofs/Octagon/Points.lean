import Enclosure.Proofs.Constraints
import Enclosure.Proofs.Octagon.Queries

/-!
# The points of octagons over mixed spaces

A point of a space has integers on its integer dimensions.
-/

namespace Enclosure

open ExtRat BoundMatrix

/-! ### Rounded bounds -/

namespace ExtRat

variable {u v : ExtRat} {q : Rat}

theorem fin_le_twice : fin q ≤ u.twice ↔ fin (q / 2) ≤ u := by
  rw [twice, mul_comm, pos_mul two_pos]
  cases u with
  | fin p =>
    rw [fin_le_fin, fin_le_fin]
    constructor <;> intro h <;> linarith
  | _ => simp

theorem twice_half (u : ExtRat) : u.half.twice = u := by
  cases u with
  | fin p =>
    change fin (p * mkRat 1 2 * 2) = fin p
    ring_nf
  | _ => rfl

theorem twice_le_twice (h : u ≤ v) : u.twice ≤ v.twice := by
  rw [twice, twice, mul_comm, mul_comm v]
  exact mul_le_mul_left (by decide) h

end ExtRat

/-! ### Closing a matrix -/

namespace BoundMatrix

variable {m m' : BoundMatrix} {s : Space} {n a b : Nat} {x : List Rat}

theorem nodeValue_den (point : s.IsPoint x) (integer : s.isInt (nodeDim a) = true) :
    (nodeValue x a).den = 1 := by
  have whole := point.integral _ integer
  unfold nodeValue
  split
  · exact whole
  · rwa [Rat.neg_den]

section

variable (square : m.IsSquare n)
include square

theorem IsSquare.entry_roundIntegers (s : Space) (a b : Nat) :
    (m.roundIntegers s).entry a b =
      if s.isInt (nodeDim a) && s.isInt (nodeDim b) then
        if b = opposite a then (m.entry a b).half.floor.twice else (m.entry a b).floor
      else m.entry a b := by
  refine square.entry_mapEntries fun _ => ?_
  split
  · split <;> rfl
  · rfl

theorem IsSquare.entry_zeroDiagonal (inside : a < n) (inside' : b < n) :
    m.zeroDiagonal.entry a b = if a = b then .zero else m.entry a b :=
  square.entry_mapEntries fun outside => absurd ⟨inside, inside'⟩ outside

theorem entry_shortest_le (a b : Nat) : m.shortest.entry a b ≤ m.entry a b :=
  le_iff_forall_fin.2 fun _ bound => Bounds.foldl_pivot square bound

theorem entry_roundIntegers_le (s : Space) (a b : Nat) :
    (m.roundIntegers s).entry a b ≤ m.entry a b := by
  rw [square.entry_roundIntegers]
  split
  · split
    · simpa only [twice_half] using twice_le_twice (floor_le (m.entry a b).half)
    · exact floor_le _
  · exact le_refl _

theorem entry_strengthen_le (a b : Nat) : m.strengthen.entry a b ≤ m.entry a b := by
  rw [square.entry_strengthen, min_eq]
  exact min_le_left _ _

theorem holds_roundIntegers (point : s.IsPoint x) : (m.roundIntegers s).Holds x ↔ m.Holds x := by
  refine forall₂_congr fun a b => ?_
  rw [square.entry_roundIntegers]
  split
  · rename_i integers
    obtain ⟨left, right⟩ := Bool.and_eq_true_iff.1 integers
    have integer := nodeValue_den point left
    split
    · rename_i other
      rw [other, nodeValue_opposite, sub_neg_eq_add, ← two_mul]
      rw [fin_le_twice, mul_div_cancel_left₀ _ two_ne_zero, fin_le_floor integer, fin_le_half]
    · refine fin_le_floor ?_
      have whole := (Rat.den_eq_one_iff _).1 integer
      have whole' := (Rat.den_eq_one_iff _).1 (nodeValue_den point right)
      rw [← whole, ← whole', ← Int.cast_sub, Rat.den_intCast]
  · rfl

end

theorem not_holds_of_isContradictory (contradictory : m.isContradictory = true) (x : List Rat) :
    ¬ m.Holds x := by
  intro holds
  simp only [isContradictory, List.any_eq_true, Bool.or_eq_true, decide_eq_true_eq] at contradictory
  obtain ⟨a, -, loop | crossed⟩ := contradictory
  · have zero := holds a a
    rw [sub_self, ← sign_nonneg] at zero
    exact absurd zero (not_le.2 loop)
  · refine absurd (sign_nonneg.2 (fin_le_iff_forall.2 fun q le => ?_)) (not_le.2 crossed)
    obtain ⟨p, there, back⟩ := boundSum_le_fin.1 le
    have first := holds_iff.1 holds _ _ _ there
    have second := holds_iff.1 holds _ _ _ back
    linarith

theorem entry_zeroDiagonal_le (square : m.IsSquare n) (consistent : m.isContradictory = false)
    (inside : a < n) (inside' : b < n) : m.zeroDiagonal.entry a b ≤ m.entry a b := by
  rw [square.entry_zeroDiagonal inside inside']
  split
  · rename_i same
    exact same ▸ (square.isContradictory_eq_false.1 consistent a inside).1
  · exact le_refl _

theorem holds_zeroDiagonal (square : m.IsSquare n) (consistent : m.isContradictory = false) :
    m.zeroDiagonal.Holds x ↔ m.Holds x := by
  have zeros : m.zeroDiagonal.IsSquare n := square.mapEntries _
  refine forall₂_congr fun a b => ?_
  by_cases inside : a < n ∧ b < n
  · rw [square.entry_zeroDiagonal inside.1 inside.2]
    split
    · rename_i same
      rw [← same, sub_self]
      exact iff_of_true (le_refl _) (square.isContradictory_eq_false.1 consistent a inside.1).1
    · rfl
  · rw [zeros.entry_of_not_lt inside, square.entry_of_not_lt inside]

theorem close?_spec (square : m.IsSquare n) :
    match m.close? s with
    | none => ∀ x, s.IsPoint x → ¬ m.Holds x
    | some m' => m'.IsSquare n ∧ (∀ a < n, ∀ b < n, m'.entry a b ≤ m.entry a b) ∧
        ∀ x, s.IsPoint x → (m'.Holds x ↔ m.Holds x) := by
  have short := square.shortest
  have rounded : (m.shortest.roundIntegers s).IsSquare n := short.mapEntries _
  have strong : (m.shortest.roundIntegers s).strengthen.IsSquare n := rounded.mapEntries _
  have points (x : List Rat) (point : s.IsPoint x) :
      (m.shortest.roundIntegers s).strengthen.Holds x ↔ m.Holds x := by
    rw [holds_strengthen rounded, holds_roundIntegers short point, holds_shortest square]
  unfold close?
  dsimp only
  cases loop : m.shortest.hasNegativeLoop with
  | true =>
    intro x _ holds
    exact not_holds_of_hasNegativeLoop loop x ((holds_shortest square).2 holds)
  | false =>
    cases consistent : (m.shortest.roundIntegers s).strengthen.isContradictory with
    | true => exact fun x point holds =>
        not_holds_of_isContradictory consistent x ((points x point).2 holds)
    | false =>
      refine ⟨strong.mapEntries _, fun a inside b inside' => ?_, fun x point => ?_⟩
      · calc _ ≤ (m.shortest.roundIntegers s).strengthen.entry a b :=
              entry_zeroDiagonal_le strong consistent inside inside'
          _ ≤ (m.shortest.roundIntegers s).entry a b := entry_strengthen_le rounded a b
          _ ≤ m.shortest.entry a b := entry_roundIntegers_le short s a b
          _ ≤ m.entry a b := entry_shortest_le square a b
      · rw [holds_zeroDiagonal strong consistent, points x point]

end BoundMatrix

/-! ### Points -/

namespace Octagon

variable {o a b : Octagon} {x : List Rat}

def IsSquare (o : Octagon) : Prop := o.matrix.IsSquare (2 * o.space.size)

/-- The points of the space that satisfy the matrix of an octagon that is not marked as
empty. -/
def HasPoint (o : Octagon) (x : List Rat) : Prop := o.space.IsPoint x ∧ o.Contains x

theorem hasPoint_iff : o.HasPoint x ↔ o.empty = false ∧ o.space.IsPoint x ∧ o.matrix.Holds x :=
  ⟨fun h => ⟨h.2.1, h.1, h.2.2.2⟩, fun h => ⟨h.2.1, h.1, h.2.1.length, h.2.2⟩⟩

theorem HasPoint.isPoint (h : o.HasPoint x) : o.space.IsPoint x := h.1

theorem HasPoint.holds (h : o.HasPoint x) : o.matrix.Holds x := h.2.2.2

theorem HasPoint.not_empty (h : o.HasPoint x) : o.empty = false := h.2.1

theorem isSquare_top (s : Space) : (top s).IsSquare := isSquare_ofFn _ _

theorem isSquare_bottom (s : Space) : (bottom s).IsSquare := isSquare_ofFn _ _

theorem not_hasPoint_bottom {s : Space} : ¬ (bottom s).HasPoint x :=
  fun h => Bool.noConfusion h.not_empty

theorem close_cases (o : Octagon) :
    (o.close = o ∧ (o.closed = true ∨ o.empty = true)) ∨
      (o.close = { o with empty := true } ∧ o.matrix.close? o.space = none) ∨
      ∃ m, o.close = { o with matrix := m, closed := true, widened := false } ∧
        o.empty = false ∧ o.matrix.close? o.space = some m := by
  unfold close
  split
  · rename_i known
    exact .inl ⟨rfl, by simpa using known⟩
  · have full : o.empty = false := by simp_all
    split
    · rename_i m closed
      exact .inr (.inr ⟨m, rfl, full, closed⟩)
    · rename_i failed
      exact .inr (.inl ⟨rfl, failed⟩)

theorem close_close (o : Octagon) : o.close.close = o.close := by
  rcases o.close_cases with ⟨same, -⟩ | ⟨same, -⟩ | ⟨m, same, -⟩
  · rw [same, same]
  · rw [same, close, Bool.or_true, if_pos rfl]
  · rw [same, close, Bool.true_or, if_pos rfl]

theorem IsSquare.close (square : o.IsSquare) : o.close.IsSquare := by
  have spec := close?_spec (s := o.space) square
  rcases o.close_cases with ⟨same, -⟩ | ⟨same, -⟩ | ⟨m, same, -, closed⟩
  · rwa [same]
  · rwa [same]
  · rw [closed] at spec
    rw [same]
    exact spec.1

theorem hasPoint_close (square : o.IsSquare) : o.close.HasPoint x ↔ o.HasPoint x := by
  have spec := close?_spec (s := o.space) square
  rcases o.close_cases with ⟨same, -⟩ | ⟨same, failed⟩ | ⟨m, same, _, closed⟩
  · rw [same]
  · rw [failed] at spec
    refine iff_of_false (fun h => ?_) fun h => spec x h.isPoint h.holds
    rw [same] at h
    exact Bool.noConfusion h.not_empty
  · rw [closed] at spec
    rw [same, hasPoint_iff, hasPoint_iff]
    exact and_congr_right fun _ => and_congr_right fun point => spec.2.2 x point

theorem entry_close_le (square : o.IsSquare) (full : o.close.empty = false) {i j : Nat}
    (left : i < 2 * o.space.size) (right : j < 2 * o.space.size) :
    o.close.matrix.entry i j ≤ o.matrix.entry i j := by
  have spec := close?_spec (s := o.space) square
  rcases o.close_cases with ⟨same, -⟩ | ⟨same, -⟩ | ⟨m, same, -, closed⟩
  · rw [same]
  · rw [same] at full
    exact Bool.noConfusion full
  · rw [closed] at spec
    rw [same]
    exact spec.2.1 i left j right

theorem not_hasPoint_of_empty_close (square : o.IsSquare) (empty : o.close.empty = true) :
    ¬ o.HasPoint x := by
  intro h
  have closed := (hasPoint_close square).2 h
  simp [closed.not_empty] at empty

theorem empty_of_empty (empty : o.empty = true) : o.close.empty = true := by
  rw [close, empty, Bool.or_true, if_pos rfl, empty]

theorem HasPoint.of_within (square : a.IsSquare) (square' : b.IsSquare) (same : a.space = b.space)
    (within : a.within b = true) (h : a.HasPoint x) : b.HasPoint x := by
  have closed := (hasPoint_close square).2 h
  unfold Octagon.within at within
  dsimp only at within
  rw [closed.not_empty, Bool.false_or, Bool.and_eq_true, Bool.not_eq_true',
    le_iff square.close, space_close] at within
  obtain ⟨full, entries⟩ := within
  refine hasPoint_iff.2 ⟨full, same ▸ h.isPoint, fun i j => ?_⟩
  by_cases inside : i < 2 * a.space.size ∧ j < 2 * a.space.size
  · exact (closed.holds i j).trans (entries i inside.1 j inside.2)
  · rw [same] at inside
    rw [IsSquare.entry_of_not_lt square' inside]
    exact le_posInf _

theorem within_of_entries (square : a.IsSquare) (full : b.empty = false)
    (entries : ∀ i < 2 * a.space.size, ∀ j < 2 * a.space.size,
      a.close.matrix.entry i j ≤ b.matrix.entry i j) : a.within b = true := by
  unfold within
  dsimp only
  rw [full, Bool.not_false, Bool.true_and, Bool.or_eq_true, le_iff square.close, space_close]
  exact .inr entries

theorem within_of_empty_close (empty : a.close.empty = true) : a.within b = true := by
  unfold within
  dsimp only
  rw [empty, Bool.true_or]

theorem within_self (square : o.IsSquare) : o.within o = true := by
  cases empty : o.close.empty with
  | true => exact within_of_empty_close empty
  | false =>
    have full : o.empty = false := Bool.eq_false_iff.2 fun marked => by
      simp [empty_of_empty marked] at empty
    exact within_of_entries square full fun i left j right => entry_close_le square empty left right

end Octagon

end Enclosure
