import Enclosure.Proofs.Octagon.Points
import Enclosure.Proofs.Spaces

/-!
# Operations on octagons lose no points

The lattice operations compare matrices entry by entry.
-/

namespace Enclosure

open Op BoundMatrix

/-! ### Nodes that move -/

theorem nodeValue_nodeOf {x y : List Rat} {a d : Nat}
    (same : x.getD d 0 = y.getD (nodeDim a) 0) : nodeValue x (nodeOf a d) = nodeValue y a := by
  have parity : nodeOf a d % 2 = a % 2 := by
    unfold nodeOf
    omega
  have dim : nodeDim (nodeOf a d) = d := by
    unfold nodeOf nodeDim
    omega
  rw [nodeValue, nodeValue, parity, dim, same]

theorem nodeValue_readAt {dims : List Nat} {x : List Rat} {a d : Nat}
    (found : dims[nodeDim a]? = some d) : nodeValue (readAt dims x) a = nodeValue x (nodeOf a d) :=
  (nodeValue_nodeOf (getD_readAt found x).symm).symm

namespace BoundMatrix

variable {m : BoundMatrix} {n : Nat} {x : List Rat}

theorem holds_ofFn {f : Nat → Nat → ExtRat}
    (h : ∀ a < n, ∀ b < n, .fin (nodeValue x a - nodeValue x b) ≤ f a b) : (ofFn n f).Holds x := by
  intro a b
  rw [entry_ofFn]
  split
  · rename_i inside
    exact h a inside.1 b inside.2
  · exact ExtRat.le_posInf _

theorem holds_mapEntries (square : m.IsSquare n) {g : Nat → Nat → ExtRat → ExtRat}
    (h : ∀ a < n, ∀ b < n, .fin (nodeValue x a - nodeValue x b) ≤ g a b (m.entry a b)) :
    (m.mapEntries g).Holds x := by
  rw [mapEntries, square.nodes]
  exact holds_ofFn h

end BoundMatrix

namespace Octagon

variable {request : Request} {risk : Prop} {o a b : Octagon} {x y : List Rat} {s : Space}
  {c : SpaceChange}

theorem hasPoint_top : (top s).HasPoint x ↔ s.IsPoint x := by
  rw [hasPoint_iff]
  refine ⟨fun h => h.2.1, fun point => ⟨rfl, point, holds_ofFn fun a _ b _ => ?_⟩⟩
  by_cases same : a = b
  · rw [if_pos same, same, sub_self]
    exact le_refl _
  · rw [if_neg same]
    exact ExtRat.le_posInf _

theorem IsSquare.mapMatrix (square : o.IsSquare) (g : Nat → Nat → ExtRat → ExtRat)
    (closed empty widened : Bool) :
    IsSquare ⟨o.space, o.matrix.mapEntries g, closed, empty, widened⟩ :=
  .mapEntries square g

theorem ensures_requireSame (operation : DomainOperation) (same : a.space = b.space) :
    Ensures request risk (requireSame operation a b) fun _ => True := by
  rw [requireSame, if_pos same]
  exact ensures_pure trivial

theorem ensures_meet (square : a.IsSquare) (square' : b.IsSquare) (same : a.space = b.space) :
    Ensures request risk (a.meet b) fun w =>
      w.IsSquare ∧ w.space = a.space ∧ ∀ x, w.HasPoint x ↔ a.HasPoint x ∧ b.HasPoint x := by
  refine (ensures_requireSame _ same).bind fun _ _ => ?_
  split
  · rename_i empty
    refine ensures_pure ⟨isSquare_bottom _, rfl, fun x => ?_⟩
    refine iff_of_false not_hasPoint_bottom ?_
    rintro ⟨inA, inB⟩
    rw [inA.not_empty, inB.not_empty] at empty
    exact absurd empty (by decide)
  · rename_i full
    obtain ⟨_, _⟩ : a.empty = false ∧ b.empty = false := by simpa using full
    have least (x : List Rat) : Holds (a.matrix.mapEntries
        fun i j e => e.min (b.matrix.entry i j)) x ↔ a.matrix.Holds x ∧ b.matrix.Holds x := by
      simp only [Holds, ← forall_and]
      refine forall₂_congr fun i j => ?_
      rw [IsSquare.entry_mapEntries square fun outside => ?_, ExtRat.min_eq, le_min_iff]
      rw [IsSquare.entry_of_not_lt square' (same ▸ outside)]
      rfl
    refine ensures_pure ⟨square.mapMatrix _ _ _ _, rfl, fun x => ?_⟩
    simp only [hasPoint_iff, same, least]
    tauto

theorem ensures_join (square : a.IsSquare) (square' : b.IsSquare) (same : a.space = b.space) :
    Ensures request risk (a.join b) fun w =>
      w.IsSquare ∧ w.space = a.space ∧ ∀ x, a.HasPoint x ∨ b.HasPoint x → w.HasPoint x := by
  refine (ensures_requireSame _ same).bind fun _ _ => ?_
  have closed {x : List Rat} (h : a.HasPoint x ∨ b.HasPoint x) :
      a.close.HasPoint x ∨ b.close.HasPoint x :=
    h.imp (hasPoint_close square).2 (hasPoint_close square').2
  dsimp only
  split
  · rename_i empty
    refine ensures_pure ⟨square'.close, (space_close b).trans same.symm, fun x h => ?_⟩
    exact (closed h).resolve_left fun inA => by simp [inA.not_empty] at empty
  · split
    · rename_i empty
      refine ensures_pure ⟨square.close, space_close a, fun x h => ?_⟩
      exact (closed h).resolve_right fun inB => by simp [inB.not_empty] at empty
    · refine .markInexactIf (ensures_pure
        ⟨square.close.mapMatrix _ _ _ _, space_close a, fun x h => ?_⟩)
      have point : a.space.IsPoint x := h.elim (·.isPoint) fun inB => same ▸ inB.isPoint
      rw [hasPoint_iff]
      refine ⟨rfl, (space_close a).symm ▸ point, holds_mapEntries square.close fun i _ j _ => ?_⟩
      change _ ≤ ExtRat.max _ _
      rw [ExtRat.max_eq]
      exact le_max_iff.2 ((closed h).imp (·.holds i j) (·.holds i j))

/-! ### Dimensions -/

def insertedMatrix (m : BoundMatrix) (places : List Nat) (n : Nat) : BoundMatrix :=
  .ofFn n fun i j =>
    match places.idxOf? (nodeDim i), places.idxOf? (nodeDim j) with
    | some d, some e => m.entry (nodeOf i d) (nodeOf j e)
    | _, _ => if i = j then .zero else .posInf

theorem holds_insertedMatrix {m : BoundMatrix} {places : List Nat} {n : Nat}
    (holds : m.Holds (readAt places y)) : (insertedMatrix m places n).Holds y := by
  have value {i d : Nat} (found : places.idxOf? (nodeDim i) = some d) :
      nodeValue (readAt places y) (nodeOf i d) = nodeValue y i := by
    obtain ⟨inside, same, -⟩ := List.idxOf?_eq_some_iff.1 found
    apply nodeValue_nodeOf
    apply getD_readAt
    rw [List.getElem?_eq_getElem inside, same]
  apply holds_ofFn
  intro i _ j _
  split
  · rename_i d e left right
    rw [← value left, ← value right]
    exact holds _ _
  · by_cases same : i = j
    · rw [if_pos same, same, sub_self]
      exact le_refl _
    · rw [if_neg same]
      exact ExtRat.le_posInf _

theorem ensures_removeDimensions (square : o.IsSquare) (fits : c.Removes o.space) :
    Ensures request risk (o.removeDimensions c) fun w =>
      w.IsSquare ∧ w.space = ⟨o.space.ints - c.ints, o.space.reals - c.reals⟩ ∧
        ∀ x, o.HasPoint x → w.space.IsPoint (readAt (c.kept o.space.size) x) →
          w.HasPoint (readAt (c.kept o.space.size) x) := by
  unfold removeDimensions
  rw [if_neg (by simpa using fits.inside)]
  refine .ofExceptBind fits.shrink_eq ?_
  dsimp only
  split
  · rename_i empty
    refine ensures_pure ⟨isSquare_bottom _, rfl, fun x inside _ => ?_⟩
    exact absurd inside (not_hasPoint_of_empty_close square empty)
  · have length : (c.kept o.space.size).length =
        (⟨o.space.ints - c.ints, o.space.reals - c.reals⟩ : Space).size := fits.length_kept
    rw [if_neg (by simpa using length)]
    refine ensures_pure ⟨isSquare_ofFn _ _, rfl, fun x inside point => ?_⟩
    refine hasPoint_iff.2 ⟨rfl, point, holds_ofFn fun i left j right => ?_⟩
    have value {i : Nat}
        (inside : i < 2 * (⟨o.space.ints - c.ints, o.space.reals - c.reals⟩ : Space).size) :
        nodeValue (readAt (c.kept o.space.size) x) i =
          nodeValue x (nodeOf i ((c.kept o.space.size).getD (nodeDim i) 0)) := by
      have within : nodeDim i < (c.kept o.space.size).length := length ▸ nodeDim_lt.2 inside
      rw [List.getD_eq_getElem _ _ within]
      exact nodeValue_readAt (List.getElem?_eq_getElem within)
    rw [value left, value right]
    exact ((hasPoint_close square).2 inside).holds _ _

theorem nodeValue_preimage {p : Permutation} {n i : Nat} (valid : p.Valid n) (below : i < 2 * n) :
    nodeValue (readAt ((List.range n).map p.image) y) (nodeOf i (p.preimage (nodeDim i))) =
      nodeValue y i := by
  have dim := nodeDim_lt.2 below
  apply nodeValue_nodeOf
  apply getD_readAt
  simp [valid.preimage_lt dim, valid.image_preimage dim]

theorem ensures_permuteDimensions {p : Permutation} (square : o.IsSquare)
    (valid : p.Valid o.space.size) :
    Ensures request risk (o.permuteDimensions p) fun w =>
      w.IsSquare ∧ w.space = o.space ∧ ∀ y, o.space.IsPoint y →
        o.HasPoint (readAt ((List.range o.space.size).map p.image) y) → w.HasPoint y := by
  unfold permuteDimensions
  rw [if_neg (by simpa [Permutation.size] using valid.length)]
  refine ensures_pure ⟨square.mapMatrix _ _ _ _, rfl, fun y point inside => ?_⟩
  refine hasPoint_iff.2 ⟨inside.not_empty, point, holds_mapEntries square ?_⟩
  intro i left j right
  rw [← nodeValue_preimage valid left, ← nodeValue_preimage valid right]
  exact inside.holds _ _

theorem ensures_forget (square : o.IsSquare) {dims : List Nat}
    (below : ∀ d ∈ dims, d < o.space.size) (project : Bool) :
    Ensures request risk (o.forget dims project) fun w =>
      w.IsSquare ∧ w.space = o.space ∧ ∀ x y, o.HasPoint x → o.space.IsPoint y →
        (∀ d, d ∉ dims → y.getD d 0 = x.getD d 0) →
        (project = true → ∀ d ∈ dims, y.getD d 0 = 0) → w.HasPoint y := by
  unfold forget
  dsimp only
  split
  · rename_i empty
    refine ensures_pure ⟨square.close, space_close o, fun x y inside => ?_⟩
    exact absurd inside (not_hasPoint_of_empty_close square empty)
  · rw [if_neg (by simpa using below)]
    refine ensures_pure ⟨square.close.mapMatrix _ _ _ _, space_close o,
      fun x y inside point agree zeros => ?_⟩
    have closed := (hasPoint_close square).2 inside
    refine hasPoint_iff.2 ⟨closed.not_empty, (space_close o).symm ▸ point,
      holds_mapEntries square.close fun i _ j _ => ?_⟩
    have keeps {i : Nat} (kept : nodeDim i ∉ dims) : nodeValue y i = nodeValue x i := by
      rw [nodeValue, nodeValue, agree _ kept]
    by_cases same : i = j
    · -- a node does not differ from itself at any point
      rw [if_pos same, same, sub_self, ← sub_self (nodeValue x j)]
      exact closed.holds j j
    · rw [if_neg same]
      by_cases forgotten : nodeDim i ∈ dims ∨ nodeDim j ∈ dims
      · rw [if_pos forgotten]
        split
        · rename_i zero
          obtain ⟨rfl, rfl⟩ : project = true ∧ j = opposite i := by simpa using zero
          have mem : nodeDim i ∈ dims := by simpa using forgotten
          have value : nodeValue y i = 0 := by
            rw [nodeValue, zeros rfl _ mem, neg_zero, ite_self]
          rw [nodeValue_opposite, value, neg_zero, sub_zero]
          exact le_refl _
        · exact ExtRat.le_posInf _
      · rw [if_neg forgotten]
        rw [not_or] at forgotten
        rw [keeps forgotten.1, keeps forgotten.2]
        exact closed.holds i j

end Octagon

end Enclosure
