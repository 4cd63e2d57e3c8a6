import Enclosure.Proofs.Lattices
import Enclosure.Proofs.Octagon.Regularity
import Enclosure.Proofs.Octagon.Thresholds

/-!
# Octagons are a lattice

An octagon is found to be within another one if its closed bounds are not above the bounds of the
other one.
-/

namespace Enclosure

open BoundMatrix

namespace Octagon

variable {m : BoundMatrix} {n : Nat} {o a b u : Octagon} {request : Request} {s : Space}

/-! ### Inclusion -/

theorem within_cases (square : a.IsSquare) (within : a.within b = true) :
    a.close.empty = true ∨ a.close.empty = false ∧ b.empty = false ∧
      ∀ i < 2 * a.space.size, ∀ j < 2 * a.space.size,
        a.close.matrix.entry i j ≤ b.matrix.entry i j := by
  unfold Octagon.within at within
  rw [Bool.or_eq_true, Bool.and_eq_true, Bool.not_eq_true', le_iff square.close,
    space_close] at within
  cases empty : a.close.empty with
  | true => exact .inl rfl
  | false => exact .inr ⟨rfl, within.resolve_left (by simp [empty])⟩

theorem within_bottom_of_within (square : u.IsSquare) (empty : a.empty = true)
    (within : u.within a = true) (b : Octagon) : u.within b = true := by
  rcases within_cases square within with none | ⟨-, full, -⟩
  · exact within_of_empty_close none
  · simp [empty] at full

theorem closed_close (full : o.close.empty = false) : o.close.closed = true := by
  rcases o.close_cases with ⟨same, _ | empty⟩ | ⟨same, -⟩ | ⟨m, same, -⟩
  · rwa [same]
  · simp [empty_of_empty empty] at full
  · simp [same] at full
  · rw [same]

theorem exists_point_above {i j : Nat} (inside : i < 2 * s.size) (ne : i ≠ j) (q : Rat) :
    ∃ x, s.IsPoint x ∧ q < nodeValue x i - nodeValue x j := by
  -- one dimension goes far out in the direction of the first node, at an integer
  have origin : s.IsPoint (.replicate s.size 0) := ⟨List.length_replicate, fun d _ => by simp⟩
  obtain ⟨k, above⟩ := exists_setNode_above (x := .replicate s.size 0)
    (by simpa using nodeDim_lt.2 inside) ne q
  exact ⟨_, isPoint_setNode origin fun _ => by simp, above⟩

/-! ### The diagonal -/

structure HasDiagonal (o : Octagon) : Prop where
  square : o.IsSquare
  diagonal : o.empty = false → o.closed = true → ∀ i < 2 * o.space.size, o.matrix.entry i i ≤ .zero

theorem matricesKeep_isSquare :
    MatricesKeep (fun m n => m.IsSquare (2 * n)) fun _ => True where
  proper _ _ := trivial
  unbounded _ := isSquare_ofFn _ _
  tighten square _ := square.mapEntries _
  close square closed := by
    obtain ⟨-, -, rfl⟩ := close?_eq_some closed
    exact ((square.shortest.mapEntries _).mapEntries _).mapEntries _
  min square _ := square.mapEntries _
  max square _ := square.mapEntries _
  kept square _ := square.mapEntries _
  read _ _ := isSquare_ofFn _ _
  inserted _ _ := isSquare_ofFn _ _
  zeroed _ square := square.mapEntries _
  forgotten _ _ square := square.mapEntries _

def LowDiagonal (m : BoundMatrix) : Prop := ∀ i < m.nodes, m.entry i i ≤ .zero

theorem lowDiagonal_iff (square : m.IsSquare n) : LowDiagonal m ↔ ∀ i < n, m.entry i i ≤ .zero := by
  rw [LowDiagonal, square.nodes]

theorem marksKeep_lowDiagonal :
    MarksKeep (fun m n => m.IsSquare (2 * n)) (fun _ => LowDiagonal) fun _ _ => False where
  unbounded _ _ := (lowDiagonal_iff (isSquare_ofFn _ _)).2 fun _ inside =>
    (entry_ofFn.trans ((if_pos ⟨inside, inside⟩).trans (if_pos rfl))).le
  close {m _ s _} square closed _ := by
    obtain ⟨-, -, rfl⟩ := close?_eq_some closed
    have strong : (m.shortest.roundIntegers s).strengthen.IsSquare (2 * s.size) :=
      (square.shortest.mapEntries _).mapEntries _
    exact (lowDiagonal_iff (strong.mapEntries _)).2 fun i inside =>
      ((strong.entry_zeroDiagonal inside inside).trans (if_pos rfl)).le
  max square square' low low' := (lowDiagonal_iff (square.mapEntries _)).2 fun i inside => by
    rw [square.entry_mapEntries fun outside => absurd ⟨inside, inside⟩ outside, ExtRat.max_eq]
    exact max_le ((lowDiagonal_iff square).1 low i inside)
      ((lowDiagonal_iff square').1 low' i inside)
  read square low below _ := (lowDiagonal_iff (isSquare_ofFn _ _)).2 fun i inside => by
    rw [entry_ofFn, if_pos ⟨inside, inside⟩]
    exact (lowDiagonal_iff square).1 low _ (nodeOf_lt.2 (below _ (nodeDim_lt.2 inside)))
  inserted square low length _ :=
    (lowDiagonal_iff (isSquare_ofFn _ _)).2 fun i inside => by
      rw [entry_ofFn, if_pos ⟨inside, inside⟩]
      split
      · rename_i d e found found'
        obtain rfl := Option.some.inj (found.symm.trans found')
        obtain ⟨old, -⟩ := List.idxOf?_eq_some_iff.1 found
        exact (lowDiagonal_iff square).1 low _ (nodeOf_lt.2 (length ▸ old))
      · exact (if_pos rfl).le
  forgotten square low _ := (lowDiagonal_iff (square.mapEntries _)).2 fun i inside => by
    rw [square.entry_mapEntries fun outside => absurd ⟨inside, inside⟩ outside, if_pos rfl]
    exact (lowDiagonal_iff square).1 low i inside
  append _ _ _ _ := .rfl

theorem HasDiagonal.marked (h : o.HasDiagonal) :
    Marked (fun m n => m.IsSquare (2 * n)) LowDiagonal o.space o :=
  ⟨rfl, h.square, fun _ => h.square, fun full closed =>
    (lowDiagonal_iff h.square).2 (h.diagonal full closed)⟩

theorem Marked.hasDiagonal (h : Marked (fun m n => m.IsSquare (2 * n)) LowDiagonal s o) :
    o.HasDiagonal :=
  ⟨h.square, fun full closed => (lowDiagonal_iff h.square).1 (h.closed full closed)⟩

theorem keeps_hasDiagonal : domain.Keeps Construction.IsValid HasDiagonal := by
  have keeps := keeps_marked matricesKeep_isSquare marksKeep_lowDiagonal
    (fun _ _ _ _ _ _ => trivial) fun c valid => movesKeep_false valid
  exact keeps.congr fun o => ⟨Marked.hasDiagonal, HasDiagonal.marked⟩

theorem hasDiagonal_bottom (s : Space) : (bottom s).HasDiagonal := keeps_hasDiagonal.bottom s

theorem HasDiagonal.close (h : o.HasDiagonal) : o.close.HasDiagonal :=
  (h.marked.close matricesKeep_isSquare marksKeep_lowDiagonal fun _ none => none).hasDiagonal

section

variable (h : a.HasDiagonal) (h' : b.HasDiagonal) (same : a.space = b.space)
include h h' same

theorem HasDiagonal.joining : (joining a b).HasDiagonal :=
  (h.marked.joining matricesKeep_isSquare marksKeep_lowDiagonal
    (same ▸ h'.marked) fun _ none => none).hasDiagonal

/-! ### Meets and joins -/

theorem isMeet_meeting :
    core.IsMeet HasDiagonal (fun a b => a.within b = true) a b (meeting a b) := by
  have diagonal := (h.marked.meeting matricesKeep_isSquare (same ▸ h'.marked)).hasDiagonal
  unfold meeting at diagonal ⊢
  split
  · rename_i empty
    have none (c : Octagon) : (bottom a.space).within c = true :=
      within_of_empty_close (empty_of_empty rfl)
    refine ⟨hasDiagonal_bottom _, rfl, none a, none b, fun u hu _ left right => ?_⟩
    rcases Bool.or_eq_true_iff.1 empty with empty | empty
    · exact within_bottom_of_within hu.square empty left _
    · exact within_bottom_of_within hu.square empty right _
  · rename_i full
    rw [if_neg full] at diagonal
    rw [Bool.or_eq_true, not_or, Bool.not_eq_true, Bool.not_eq_true] at full
    have entry {i j : Nat} left right :
        (a.matrix.mapEntries fun i j e => e.min (b.matrix.entry i j)).entry i j =
          min (a.matrix.entry i j) (b.matrix.entry i j) :=
      (IsSquare.entry_mapEntries h.square fun outside =>
        absurd ⟨left, right⟩ outside).trans (ExtRat.min_eq _ _)
    -- closing lowers the entries further
    have lower {c : Octagon} (nonempty : c.empty = false)
        (below : ∀ i j, min (a.matrix.entry i j) (b.matrix.entry i j) ≤ c.matrix.entry i j) :
        within ⟨a.space, a.matrix.mapEntries fun i j e => e.min (b.matrix.entry i j),
          false, false, false⟩ c = true := by
      cases empty : Octagon.empty (.close ⟨a.space, a.matrix.mapEntries fun i j e =>
          e.min (b.matrix.entry i j), false, false, false⟩) with
      | true => exact within_of_empty_close empty
      | false =>
        refine within_of_entries diagonal.square nonempty fun i left j right => ?_
        refine (entry_close_le diagonal.square empty left right).trans ?_
        exact (entry left right).le.trans (below i j)
    refine ⟨diagonal, rfl, lower full.1 fun i j => min_le_left _ _,
      lower full.2 fun i j => min_le_right _ _, fun u hu space left right => ?_⟩
    have space : u.space = a.space := space
    rcases within_cases hu.square left with none | ⟨-, -, first⟩
    · exact within_of_empty_close none
    · rcases within_cases hu.square right with none | ⟨-, -, second⟩
      · exact within_of_empty_close none
      · refine within_of_entries hu.square rfl fun i left j right => ?_
        rw [entry (space ▸ left) (space ▸ right)]
        exact le_min (first i left j right) (second i left j right)

end

theorem within_close_of_within (within : a.within b = true) : a.close.within b = true := by
  unfold Octagon.within
  rwa [close_close]

theorem within_close (square : a.IsSquare) : a.within a.close = true := by
  cases empty : a.close.empty with
  | true => exact within_of_empty_close empty
  | false => exact within_of_entries square empty fun i _ j _ => le_refl _

theorem joining_within {c : Octagon} (square : a.IsSquare) (square' : b.IsSquare)
    (same : a.space = b.space) (left : a.within c = true) (right : b.within c = true) :
    (joining a b).within c = true := by
  unfold joining
  split
  · exact within_close_of_within right
  · rename_i full
    split
    · exact within_close_of_within left
    · rename_i full'
      obtain ⟨-, nonempty, first⟩ := (within_cases square left).resolve_left full
      obtain ⟨-, -, second⟩ := (within_cases square' right).resolve_left full'
      -- the join is marked as closed, so that its own entries are compared
      have marked : (a.close.closed && b.close.closed) = true := by
        rw [closed_close (eq_false_of_ne_true full), closed_close (eq_false_of_ne_true full')]
        rfl
      refine within_of_entries (square.close.mapMatrix _ _ _ _) nonempty fun i left j right => ?_
      rw [close, marked, Bool.true_or, if_pos rfl, entry_joined square]
      have left : i < 2 * a.space.size := space_close a ▸ left
      have right : j < 2 * a.space.size := space_close a ▸ right
      exact max_le (first i left j right) (second i (same ▸ left) j (same ▸ right))

theorem isJoin_joining (h : a.HasDiagonal) (h' : b.HasDiagonal) (same : a.space = b.space) :
    core.IsJoin HasDiagonal (fun a b => a.within b = true) a b (joining a b) := by
  -- with its larger operand the join is not larger than that
  have absorbs (within : b.within a = true) : (joining a b).within a = true :=
    joining_within h.square h'.square same (within_self h.square) within
  have diagonal := h.joining h' same
  unfold joining at absorbs diagonal ⊢
  split
  · rename_i empty
    rw [if_pos empty] at absorbs
    exact ⟨h'.close, (space_close b).trans same.symm, within_of_empty_close empty,
      within_close h'.square, absorbs⟩
  · rename_i full
    rw [if_neg full] at absorbs diagonal
    split
    · rename_i empty
      rw [if_pos empty] at absorbs
      exact ⟨h.close, space_close a, within_close h.square, within_of_empty_close empty, absorbs⟩
    · rename_i full'
      rw [if_neg full'] at absorbs diagonal
      refine ⟨diagonal, space_close a, within_of_entries h.square rfl fun i _ j _ => ?_,
        within_of_entries h'.square rfl fun i _ j _ => ?_, absorbs⟩
      · exact (le_max_left _ _).trans (entry_joined h.square b i j).ge
      · exact (le_max_right _ _).trans (entry_joined h.square b i j).ge

theorem within_top (h : o.HasDiagonal) : o.within (top o.space) = true := by
  cases empty : o.close.empty with
  | true => exact within_of_empty_close empty
  | false =>
    refine within_of_entries h.square rfl fun i left j right => ?_
    have entry : (unbounded (2 * o.space.size)).entry i j = if i = j then .zero else .posInf :=
      entry_ofFn.trans (if_pos ⟨left, right⟩)
    rw [top, entry]
    split
    · -- a closed matrix whose diagonal were above zero would not be within the whole space
      rename_i diagonal
      rw [← diagonal]
      exact h.close.diagonal empty (closed_close empty) _ (by rwa [space_close])
    · exact ExtRat.le_posInf _

theorem isLattice (request query : Request) :
    core.IsLattice request query HasDiagonal (fun a b => a.within b = true) where
  refl _ h := within_self h.square
  isLeq _ _ _ _ same within := finds_of_within same within query
  top s := ⟨keeps_hasDiagonal.top s, rfl⟩
  le_top _ h := within_top h
  isTop v h within := by
    have closed {x : List Rat} (point : v.space.IsPoint x) : v.close.HasPoint x :=
      (hasPoint_close h.square).2
        ((hasPoint_top.2 point).of_within (isSquare_top _) h.square rfl within)
    have origin : v.space.IsPoint (.replicate v.space.size 0) :=
      ⟨List.length_replicate, fun d _ => by simp⟩
    have nodes : v.close.matrix.nodes = 2 * v.space.size := space_close v ▸ h.square.close.nodes
    have missing {i j : Nat} (inside : i < 2 * v.space.size) (ne : i ≠ j) :
        v.close.matrix.entry i j = .posInf := by
      cases entry : v.close.matrix.entry i j with
      | posInf => rfl
      | negInf =>
        have never := (closed origin).holds i j
        rw [entry] at never
        exact (ExtRat.not_fin_le_negInf never).elim
      | fin q =>
        obtain ⟨x, point, _⟩ := exists_point_above inside ne q
        have bound := (closed point).holds i j
        rw [entry, ExtRat.fin_le_fin] at bound
        linarith
    refine Op.returns_pure (?_ : v.isTop = true)
    unfold isTop
    simp only [allNodes, nodes, (closed origin).not_empty, Bool.not_false, Bool.true_and,
      List.all_eq_true, List.mem_range, Bool.or_eq_true, decide_eq_true_eq]
    intro i left j right
    by_cases same : i = j
    · exact .inl same
    · exact .inr (missing left same)
  bottom s := ⟨hasDiagonal_bottom s, rfl⟩
  bottom_le _ _ := within_of_empty_close (empty_of_empty rfl)
  isBottom v h within := by
    have empty : v.close.empty = true := by
      rcases within_cases h.square within with empty | ⟨-, full, -⟩
      · exact empty
      · exact Bool.noConfusion full
    exact Op.returns_pure empty
  meet _ _ h h' same := (gives_meet same).returns (isMeet_meeting h h' same)
  join _ _ h h' same := (gives_join same).returns (isJoin_joining h h' same)
  join_comm _ _ h h' same := DomainCore.join_comm_of_least (fun a b h h' same =>
    (gives_join same).returns ⟨isJoin_joining h h' same, fun _ _ _ left right =>
      joining_within h.square h'.square same left right⟩) h h' same
  widening a b h h' same := ((wideningStops request).above a b h.square h'.square same).mono
    fun w above => ⟨above.2.2.1 query, above.2.2.2 query⟩

end Octagon

end Enclosure
