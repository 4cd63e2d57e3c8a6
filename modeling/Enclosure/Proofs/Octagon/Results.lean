import Enclosure.Proofs.Constructions
import Enclosure.Proofs.Octagon.Separate

/-!
# What operations on octagons return

An operation on octagons fails, or its result is one of few octagons that can be written down.
-/

namespace Enclosure

open List Op

theorem ExtRat.ceil_ne_posInf {u : ExtRat} (h : u ≠ .posInf) : u.ceil ≠ .posInf := by
  cases u with
  | posInf => exact absurd rfl h
  | _ => exact ExtRat.noConfusion

theorem Interval.IsProper.convert {i : Interval} (proper : i.IsProper)
    (full : (i.convert .rational).isEmpty = false) : (i.convert .rational).IsProper := by
  unfold Interval.convert at full ⊢
  split
  · exact proper
  · split
    · rename_i other empty
      rw [if_neg other, if_pos empty] at full
      exact absurd full (by decide)
    · constructor
      · rw [Number.value_convert_rational]
        exact proper.lower
      · rw [Number.value_convert_rational]
        exact proper.upper

theorem BoundMatrix.IsSquare.entry_max {m : BoundMatrix} {n : Nat} (square : m.IsSquare n)
    (m' : BoundMatrix) (i j : Nat) :
    (m.mapEntries fun i j e => e.max (m'.entry i j)).entry i j =
      max (m.entry i j) (m'.entry i j) := by
  refine (square.entry_mapEntries fun _ => ?_).trans (ExtRat.max_eq _ _)
  rw [ExtRat.max_eq]
  exact max_eq_left (ExtRat.le_posInf _)

namespace Octagon

variable {o a b : Octagon} {terms : List (Nat × Rat)}

/-! ### Lattice operations -/

def meeting (a b : Octagon) : Octagon :=
  if a.empty || b.empty then bottom a.space
  else
    ⟨a.space, a.matrix.mapEntries fun i j e => e.min (b.matrix.entry i j), false, false, false⟩

def joining (a b : Octagon) : Octagon :=
  if a.close.empty then b.close
  else if b.close.empty then a.close
  else
    ⟨a.close.space,
      a.close.matrix.mapEntries fun i j e => e.max (b.close.matrix.entry i j),
      a.close.closed && b.close.closed, false, false⟩

def wide (a b : Octagon) : Octagon :=
  if a.base.empty then b
  else if b.close.empty then a.base
  else ⟨a.base.space, keptEntries a.base.matrix b.close.matrix, false, false, true⟩

theorem gives_meet (same : a.space = b.space) : Gives (a.meet b) (meeting a b) := by
  rw [meet, requireSame, if_pos same, meeting]
  split <;> exact gives_pure _

theorem gives_join (same : a.space = b.space) : Gives (a.join b) (joining a b) := by
  rw [join, requireSame, if_pos same, pure_bind, joining]
  dsimp only
  split
  · exact gives_pure _
  · split
    · exact gives_pure _
    · split
      · exact gives_markInexact.bind (gives_pure _)
      · exact gives_pure _

theorem gives_widening (same : a.space = b.space) : Gives (a.widening b) (wide a b) := by
  rw [widening_eq same]
  exact gives_pure _

theorem yields_of_same {op : Op Octagon} {f : Unit → Op Octagon} {w : Octagon}
    {operation : DomainOperation} (unfolds : op = requireSame operation a b >>= f)
    (gives : a.space = b.space → Gives op w) : Yields op fun v => a.space = b.space ∧ v = w := by
  by_cases same : a.space = b.space
  · exact (gives same).yields ⟨same, rfl⟩
  · rw [unfolds, requireSame, if_neg same]
    exact (yields_fail _).bind fun _ (none : False) => none.elim

theorem entry_joined (square : a.IsSquare) (b : Octagon) (i j : Nat) :
    (a.close.matrix.mapEntries fun i j e => e.max (b.close.matrix.entry i j)).entry i j =
      max (a.close.matrix.entry i j) (b.close.matrix.entry i j) :=
  BoundMatrix.IsSquare.entry_max square.close _ i j

theorem yields_join (a b : Octagon) :
    Yields (a.join b) fun w => a.space = b.space ∧ w = joining a b :=
  yields_of_same rfl gives_join

/-! ### Dimensions -/

def readMatrix (m : BoundMatrix) (f : Nat → Nat) (n : Nat) : BoundMatrix :=
  .ofFn n fun i j => m.entry (nodeOf i (f (nodeDim i))) (nodeOf j (f (nodeDim j)))

def forgottenMatrix (m : BoundMatrix) (dims : List Nat) (project : Bool) : BoundMatrix :=
  m.mapEntries fun i j e =>
    if i = j then e
    else if nodeDim i ∈ dims ∨ nodeDim j ∈ dims then
      if project && j = opposite i then .zero else .posInf
    else e

def zeroedMatrix (m : BoundMatrix) (dims : List Nat) : BoundMatrix :=
  m.mapEntries fun i j e => if j = opposite i ∧ nodeDim i ∈ dims then .zero else e

theorem yields_addDimensions (o : Octagon) (c : SpaceChange) (project : Bool) :
    Yields (o.addDimensions c project) fun w =>
      w = top (o.space.grow c) ∨ w = bottom (o.space.grow c) ∨ o.empty = false ∧
        ((∃ added, w = ⟨o.space.grow c, zeroedMatrix (insertedMatrix o.matrix
          (c.shifts o.space.size) (2 * (o.space.grow c).size)) added, false, false, false⟩) ∨
        w = ⟨o.space.grow c, insertedMatrix o.matrix (c.shifts o.space.size)
          (2 * (o.space.grow c).size), o.closed, false, false⟩) := by
  refine yields_bind fun tooLarge => ?_
  split
  · exact yields_pure (.inl rfl)
  · split
    · exact yields_pure (.inr (.inl rfl))
    · rename_i full
      have full : o.empty = false := eq_false_of_ne_true full
      cases project with
      | false => exact yields_pure (.inr (.inr ⟨full, .inr rfl⟩))
      | true =>
        refine yields_bind fun added => ?_
        split
        · exact yields_fail _
        · exact yields_pure (.inr (.inr ⟨full, .inl ⟨added, rfl⟩⟩))

theorem yields_removeDimensions (o : Octagon) (c : SpaceChange) :
    Yields (o.removeDimensions c) fun w => ∃ s, o.space.shrink c = .ok s ∧
      (o.close.empty = true ∧ w = bottom s ∨
        o.close.empty = false ∧ (c.kept o.space.size).length = s.size ∧
        w = ⟨s, readMatrix o.close.matrix ((c.kept o.space.size).getD · 0) (2 * s.size),
          o.close.closed, false, false⟩) := by
  unfold removeDimensions
  split
  · exact yields_fail _
  · refine (yields_ofExcept fun s ok => ok).bind fun s ok => ?_
    dsimp only
    split
    · exact yields_pure ⟨s, ok, .inl ⟨‹_›, rfl⟩⟩
    · rename_i full
      split
      · exact yields_fail _
      · rename_i length
        exact yields_pure ⟨s, ok, .inr ⟨eq_false_of_ne_true full, not_not.1 length, rfl⟩⟩

theorem yields_permuteDimensions (o : Octagon) (p : Permutation) :
    Yields (o.permuteDimensions p) fun w => p.size = o.space.size ∧
      w = { o with matrix := readMatrix o.matrix p.preimage o.matrix.nodes } := by
  unfold permuteDimensions
  split
  · exact yields_fail _
  · rename_i size
    exact yields_pure ⟨not_not.1 size, rfl⟩

theorem yields_forget (o : Octagon) (dims : List Nat) (project : Bool) :
    Yields (o.forget dims project) fun w =>
      o.close.empty = true ∧ w = o.close ∨
        o.close.empty = false ∧ (∀ d ∈ dims, d < o.space.size) ∧
          w = { o.close with
            matrix := forgottenMatrix o.close.matrix dims project
            closed := o.close.closed && (!project || dims.isEmpty) } := by
  unfold forget
  dsimp only
  split
  · exact yields_pure (.inl ⟨‹_›, rfl⟩)
  · rename_i full
    split
    · exact yields_fail _
    · rename_i inside
      exact yields_pure (.inr ⟨eq_false_of_ne_true full, by simpa using inside, rfl⟩)

/-! ### Bounds -/

/-- The nodes are distinct, and the bound is a rational or missing. -/
structure NodeBound.IsProper (c : NodeBound) : Prop where
  distinct : c.a ≠ c.b
  proper : c.bound ≠ .negInf

theorem node_ne_node {d e : Nat} (ne : d ≠ e) (s t : Bool) : node d s ≠ node e t := by
  cases s <;> cases t <;> simp only [node] <;> simp <;> omega

theorem isProper_termBound (d : Nat) (x c : Rat) : (termBound d x c).IsProper :=
  ⟨BoundMatrix.ne_opposite _, ExtRat.noConfusion⟩

theorem isProper_pairBound {i j : Nat} (ne : i ≠ j) (x y c : Rat) :
    (pairBound i x j y c).IsProper :=
  ⟨node_ne_node ne _ _, ExtRat.noConfusion⟩

theorem isProper_of_mem_directBounds? {c : Rat} {cs : List NodeBound}
    (nodup : (terms.map Prod.fst).Nodup) (found : directBounds? terms c = some cs) :
    ∀ b ∈ cs, b.IsProper := by
  unfold directBounds? at found
  split at found
  · obtain rfl := Option.some.inj found
    simp
  · rename_i d x
    obtain rfl := Option.some.inj found
    rw [forall_mem_singleton]
    exact isProper_termBound d x c
  · rename_i i x j y
    split at found
    · obtain rfl := Option.some.inj found
      rw [forall_mem_singleton]
      have apart : i ≠ j := by simpa using nodup
      exact isProper_pairBound apart x y c
    · simp at found
  · simp at found

theorem isProper_of_mem_impliedBounds {c : Rat} {bounds : List Interval}
    (nodup : (terms.map Prod.fst).Nodup) : ∀ b ∈ impliedBounds terms c bounds, b.IsProper := by
  intro b mem
  obtain ⟨⟨⟨i, x⟩, k⟩, first, mem⟩ := mem_flatMap.1 mem
  rcases mem_append.1 mem with single | pair
  · obtain ⟨r, -, rfl⟩ := Option.map_eq_some_iff.1 (Option.mem_toList.1 single)
    exact isProper_termBound i x _
  · obtain ⟨⟨⟨j, y⟩, l⟩, second, found⟩ := mem_filterMap.1 pair
    dsimp only at found
    split at found
    · rename_i before
      obtain ⟨r, -, rfl⟩ := Option.map_eq_some_iff.1 found
      refine isProper_pairBound (fun same => ?_) x y _
      -- terms at different places are on different dimensions
      have left := mem_zipIdx_iff_getElem?.1 first
      have right := mem_zipIdx_iff_getElem?.1 second
      have place : k < (terms.map Prod.fst).length := by
        rw [length_map]
        exact lt_of_getElem? left
      refine absurd ((getElem?_inj place nodup).1 ?_) before.1.ne
      rw [getElem?_map, getElem?_map, left, right]
      exact congrArg some same
    · simp at found

theorem isProper_of_mem_nodeBounds (bounds : List Interval) (b : LinearBound) :
    ∀ c ∈ nodeBounds bounds b, c.IsProper := by
  refine forall_mem_flatMap.2 fun h _ => ?_
  have nodup := nodup_terms h.1
  unfold boundsOf
  cases found : direct? h.1 h.2 with
  | none => exact isProper_of_mem_impliedBounds nodup
  | some cs => exact isProper_of_mem_directBounds? nodup found

theorem yields_meetLinear (o : Octagon) (cs : List LinearConstraint) :
    Yields (o.meetLinear cs) fun w =>
      o.close.empty = true ∧ w = o.close ∨ w = bottom o.space ∨ o.close.empty = false ∧
        ∃ bs, (∀ b ∈ bs, NodeBound.IsProper b) ∧ w = (o.close.tightenAll bs).close := by
  unfold meetLinear
  dsimp only
  split
  · exact yields_pure (.inl ⟨‹_›, rfl⟩)
  · rename_i full
    refine yields_bind fun relaxed => ?_
    cases relaxed with
    | none => exact yields_pure (.inr (.inl (by rw [space_close])))
    | some bs =>
      simp only [foldlM_addLinearBound, answer_map]
      exact yields_markInexactIf (yields_pure (.inr (.inr ⟨eq_false_of_ne_true full, _,
        forall_mem_flatMap.2 fun b _ => isProper_of_mem_nodeBounds _ b, rfl⟩)))

/-! ### Boxes -/

theorem distinct_of_mem_rangeBounds {d : Nat} {lo hi : ExtRat} :
    ∀ b ∈ rangeBounds d lo hi, b.a ≠ b.b := by
  rw [rangeBounds, forall_mem_cons, forall_mem_singleton]
  exact ⟨Nat.ne_of_lt (Nat.lt_succ_self _), Nat.ne_of_gt (Nat.lt_succ_self _)⟩

theorem bound_ne_negInf_of_mem_rangeBounds {d : Nat} {lo hi : ExtRat} (lower : lo ≠ .posInf)
    (upper : hi ≠ .negInf) : ∀ b ∈ rangeBounds d lo hi, b.bound ≠ .negInf := by
  have negated : lo.neg ≠ .negInf := by
    cases lo with
    | posInf => exact absurd rfl lower
    | _ => exact ExtRat.noConfusion
  rw [rangeBounds, forall_mem_cons, forall_mem_singleton]
  exact ⟨ExtRat.twice_ne_negInf upper, ExtRat.twice_ne_negInf negated⟩

theorem yields_ofIntervals (s : Space) (is : List Interval) :
    Yields (ofIntervals s is) fun w => w = bottom s ∨
      ∃ bs, (∀ b ∈ bs, b.a ≠ b.b ∧ ((∀ i ∈ is, i.IsProper) → b.bound ≠ .negInf)) ∧
        w = (top s).tightenAll bs := by
  unfold ofIntervals
  dsimp only
  split
  · exact yields_fail _
  · split
    · exact yields_pure (.inl rfl)
    · rename_i full
      refine yields_pure (.inr ⟨_, fun b mem => ?_, rfl⟩)
      obtain ⟨⟨i, d⟩, place, mem⟩ := mem_flatMap.1 mem
      have inside := fst_mem_of_mem_zipIdx place
      obtain ⟨j, mem', rfl⟩ := mem_map.1 inside
      have inhabited : (j.convert .rational).isEmpty = false := by
        simp only [any_map, any_eq_true, not_exists, not_and] at full
        exact eq_false_of_ne_true (full j mem')
      split at mem
      · refine ⟨distinct_of_mem_rangeBounds b mem, fun proper => ?_⟩
        have bounds := (proper j mem').convert inhabited
        exact bound_ne_negInf_of_mem_rangeBounds (ExtRat.ceil_ne_posInf bounds.lower)
          (ExtRat.floor_ne_negInf bounds.upper) b mem
      · refine ⟨distinct_of_mem_rangeBounds b mem, fun proper => ?_⟩
        have bounds := (proper j mem').convert inhabited
        exact bound_ne_negInf_of_mem_rangeBounds bounds.lower bounds.upper b mem

end Octagon

end Enclosure
