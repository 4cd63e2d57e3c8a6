import Enclosure.Proofs.Octagon.Regularity

/-!
# Closed bounds around real dimensions

An octagon that is marked as closed over a space with integers need not be strongly closed: bounds
on integers are rounded after the detours are taken.
-/

namespace Enclosure

open BoundMatrix

open ExtRat (boundSum_le_boundSum le_posInf min_eq posInf_boundSum)

def Space.IsReal (s : Space) (d : Nat) : Prop := s.isInt d = false

@[simp]
theorem ExtRat.zero_boundSum (u : ExtRat) : ExtRat.zero.boundSum u = u := by
  cases u <;> simp [boundSum, add?, zero]

namespace BoundMatrix

variable {m m' : BoundMatrix} {n : Nat} {R R' : Nat → Prop}

structure IsClosedThrough (m : BoundMatrix) (R : Nat → Prop) : Prop where
  triangle : ∀ a b c, R (nodeDim b) → m.entry a c ≤ (m.entry a b).boundSum (m.entry b c)
  strong : ∀ a b, m.entry a b ≤ ((m.entry a (opposite a)).boundSum (m.entry (opposite b) b)).half

theorem IsRegular.isStronglyClosed (regular : m.IsRegular n) (closed : m.IsClosedThrough R)
    (all : ∀ d < n, R d) : m.IsStronglyClosed n where
  toIsRegular := regular
  triangle a _ b inside c _ := closed.triangle a b c (all _ (nodeDim_lt.2 inside))
  strong a _ b _ := closed.strong a b

theorem IsClosedThrough.of_nodes {φ : Nat → Nat} {F : Nat → Prop}
    (closed : m.IsClosedThrough R) (mirror : ∀ a, φ (opposite a) = opposite (φ a))
    (both : ∀ a, F (opposite a) ↔ F a) (dropped : ∀ a b, a ≠ b → F a ∨ F b → m'.entry a b = .posInf)
    (self : ∀ a, F a → m'.entry a a = .zero ∨ m'.entry a a = .posInf)
    (read : ∀ a b, ¬ F a → ¬ F b → m'.entry a b = m.entry (φ a) (φ b))
    (dims : ∀ a, ¬ F a → R' (nodeDim a) → R (nodeDim (φ a))) : m'.IsClosedThrough R' := by
  refine ⟨fun a b c mid => ?_, fun a b => ?_⟩
  · by_cases between : F b
    · -- a detour through a free node begins with a missing bound, or stays where it is
      by_cases same : a = b
      · subst same
        rcases self a between with zero | missing
        · rw [zero, ExtRat.zero_boundSum]
        · rw [missing, posInf_boundSum]
          exact le_posInf _
      · rw [dropped a b same (.inr between), posInf_boundSum]
        exact le_posInf _
    · by_cases first : F a
      · have apart : a ≠ b := fun same => between (same ▸ first)
        rw [dropped a b apart (.inl first), posInf_boundSum]
        exact le_posInf _
      · by_cases last : F c
        · have apart : b ≠ c := fun same => between (same ▸ last)
          rw [dropped b c apart (.inr last), ExtRat.boundSum_posInf]
          exact le_posInf _
        · rw [read a c first last, read a b first between, read b c between last]
          exact closed.triangle _ _ _ (dims b between mid)
  · by_cases first : F a
    · rw [dropped a _ (ne_opposite a) (.inl first), posInf_boundSum]
      exact le_posInf _
    · by_cases last : F b
      · rw [dropped _ b (ne_opposite b).symm (.inr last), ExtRat.boundSum_posInf]
        exact le_posInf _
      · rw [read a b first last, read a _ first ((both a).not.2 first),
          read _ b ((both b).not.2 last) last, mirror, mirror]
        exact closed.strong _ _

/-! ### Closing -/

theorem IsSquare.entry_strengthen_single (square : m.IsSquare n) (a : Nat) :
    m.strengthen.entry a (opposite a) = m.entry a (opposite a) := by
  rw [square.entry_strengthen]
  change (m.entry a (opposite a)).min (m.mean a (opposite a)) = _
  rw [mean_opposite, min_eq, min_self]

theorem IsMirrored.zeroDiagonal_strengthen_eq (mirrored : m.IsMirrored n)
    (consistent : m.strengthen.isContradictory = false) :
    m.strengthen.zeroDiagonal = m.strengthen := by
  have square : m.strengthen.IsSquare (2 * n) := mirrored.square.mapEntries _
  refine square.zeroDiagonal_eq fun a inside => le_antisymm ?_ ?_
  · exact (entry_strengthen_le mirrored.square a a).trans (mirrored.diagonal a inside).le
  · exact (square.isContradictory_eq_false.1 consistent a inside).1

theorem IsMirrored.isClosedThrough_close? {s : Space} (mirrored : m.IsMirrored n)
    (closed : m.close? s = some m') (real : ∀ d, R d → s.IsReal d) : m'.IsClosedThrough R := by
  obtain ⟨loop, consistent, rfl⟩ := close?_eq_some closed
  have short := mirrored.shortest loop
  have rounded : (m.shortest.roundIntegers s).IsSquare (2 * n) := short.square.mapEntries _
  rw [short.roundIntegers.zeroDiagonal_strengthen_eq consistent]
  constructor
  · intro a b c mid
    have kept {i j : Nat} (h : nodeDim i = nodeDim b ∨ nodeDim j = nodeDim b) :
        (m.shortest.roundIntegers s).entry i j = m.shortest.entry i j := by
      have none : s.isInt (nodeDim b) = false := real _ mid
      rw [short.square.entry_roundIntegers]
      rcases h with h | h <;> simp [h, none]
    have lower {i j : Nat} {q : Rat} h : (m.shortest.roundIntegers s).Bounds i j q :=
      (entry_roundIntegers_le short.square s i j).trans h
    have trans {i j k : Nat} {p q : Rat} (left : m.shortest.Bounds i j p)
        right : m.shortest.Bounds i k (p + q) :=
      .trans_shortest mirrored.square loop left right
    refine ExtRat.le_iff_forall_fin.2 fun q sum => ?_
    obtain ⟨p, left, right⟩ := ExtRat.boundSum_le_fin.1 sum
    refine (bounds_strengthen rounded).2 ?_
    rcases (bounds_strengthen rounded).1 left with left | ⟨p', first, second⟩
    · rw [Bounds, kept (.inr rfl)] at left
      rcases (bounds_strengthen rounded).1 right with right | ⟨_, first', second'⟩
      · rw [Bounds, kept (.inl rfl)] at right
        exact .inl (lower ((trans left right).mono (by linarith)))
      · -- from `a` to its opposite through `b` and the opposite of `b`
        rw [Bounds, kept (.inl rfl)] at first'
        have around := trans (trans left first') (short.mirror left)
        exact .inr ⟨_, lower around, second'.mono (by linarith)⟩
    · rw [Bounds, kept (.inr rfl)] at second
      rcases (bounds_strengthen rounded).1 right with right | ⟨_, first', second'⟩
      · rw [Bounds, kept (.inl rfl)] at right
        have around := trans (trans (short.mirror right) second) right
        exact .inr ⟨p', first, lower (around.mono (by linarith))⟩
      · -- the two bounds on `b` alone do not cross
        rw [Bounds, kept (.inl rfl)] at first'
        have crossing := bounds_of_hasNegativeLoop_eq_false short.square loop (trans first' second)
        exact .inr ⟨p', first, second'.mono (by linarith)⟩
  · intro a b
    have second := rounded.entry_strengthen_single (opposite b)
    rw [opposite_opposite] at second
    rw [rounded.entry_strengthen_single, second, rounded.entry_strengthen, min_eq]
    exact min_le_right _ _

end BoundMatrix

namespace Octagon

variable {m : BoundMatrix} {n : Nat} {R : Nat → Prop} {o : Octagon} {s : Space}

/-! ### Dimensions -/

theorem marksKeep_isClosedThrough {inv : BoundMatrix → Nat → Prop} {good : Space → Nat → Prop}
    (mirrored : ∀ {m n}, inv m n → m.IsMirrored n) (real : ∀ s d, good s d → s.IsReal d)
    (append : ∀ s k d, d < s.size → (good (s.grow (.append s.size k)) d ↔ good s d)) :
    MarksKeep inv (fun R m => m.IsClosedThrough R) good where
  unbounded n R := by
    have entry (a b : Nat) : (unbounded (2 * n)).entry a b =
        if a < 2 * n ∧ b < 2 * n then if a = b then .zero else .posInf else .posInf := entry_ofFn
    -- every node is free, so that nothing is read from the matrix which is given
    have missing (a b : Nat) : (ofFn 0 fun _ _ => .posInf).entry a b = .posInf :=
      entry_ofFn.trans (ite_self _)
    have none : (ofFn 0 fun _ _ => .posInf).IsClosedThrough fun _ => False := by
      refine ⟨fun _ _ _ h => h.elim, fun a b => ?_⟩
      rw [missing, missing, missing]
      decide
    refine none.of_nodes (fun _ => rfl) (fun _ => .rfl)
      (fun a b apart _ => ?_) (fun a _ => ?_) (fun a b h => absurd trivial h)
      fun a h => absurd trivial h
    · rw [entry, if_neg apart, ite_self]
    · rw [entry, if_pos rfl]
      exact ite_eq_or_eq _ _ _
  close h closes ok :=
    (mirrored h).isClosedThrough_close? closes fun d known => real _ d (ok d known)
  max {m m' _ _} h _ closed closed' := by
    have entry := (mirrored h).square.entry_max m'
    have left (a b : Nat) := (le_max_left _ _).trans (entry a b).ge
    have right (a b : Nat) := (le_max_right _ _).trans (entry a b).ge
    refine ⟨fun a b c mid => ?_, fun a b => ?_⟩
    · rw [entry a c]
      exact max_le
        ((closed.triangle a b c mid).trans (boundSum_le_boundSum (left a b) (left b c)))
        ((closed'.triangle a b c mid).trans (boundSum_le_boundSum (right a b) (right b c)))
    · rw [entry a b]
      exact max_le
        ((closed.strong a b).trans
          (ExtRat.half_le_half (boundSum_le_boundSum (left _ _) (left _ _))))
        ((closed'.strong a b).trans
          (ExtRat.half_le_half (boundSum_le_boundSum (right _ _) (right _ _))))
  read {_ _ n f _ _} _ closed _ dims := by
    -- the nodes outside the new matrix are the free ones
    refine closed.of_nodes (φ := fun a => nodeOf a (f (nodeDim a))) (F := fun a => ¬ a < 2 * n)
      (fun a => ?_) (fun a => opposite_lt.not) (fun a b _ outside => ?_) (fun a outside => ?_)
      (fun a b left right => ?_) fun a inside mem => ?_
    · rw [nodeDim_opposite, nodeOf_opposite]
    · exact entry_ofFn.trans (if_neg fun both => outside.elim (· both.1) (· both.2))
    · exact .inr (entry_ofFn.trans (if_neg fun both => outside both.1))
    · exact entry_ofFn.trans (if_pos ⟨not_not.1 left, not_not.1 right⟩)
    · rw [nodeDim_nodeOf]
      exact dims _ (nodeDim_lt.2 (not_not.1 inside)) mem
  inserted {_ _ n places _ _} _ closed _ dims := by
    refine closed.of_nodes (φ := fun a => nodeOf a ((places.idxOf? (nodeDim a)).getD 0))
      (F := fun a => ¬ a < 2 * n ∨ places.idxOf? (nodeDim a) = none) (fun a => ?_) (fun a => ?_)
      (fun a b apart new => ?_) (fun a new => ?_) (fun a b left right => ?_) fun a old mem => ?_
    · rw [nodeDim_opposite, nodeOf_opposite]
    · rw [nodeDim_opposite, opposite_lt]
    · rw [insertedMatrix, entry_ofFn]
      split
      · rename_i inside
        -- a new dimension is not bounded against any other node
        rcases new with (outside | new) | (outside | new)
        · exact absurd inside.1 outside
        · simp only [new]
        · exact absurd inside.2 outside
        · cases places.idxOf? (nodeDim a) <;> simp only [new]
      · rfl
    · rw [insertedMatrix, entry_ofFn]
      split
      · rename_i inside
        rcases new with outside | new
        · exact absurd inside.1 outside
        · refine .inl ?_
          simp only [new, if_true]
      · exact .inr rfl
    · rw [not_or, not_not] at left right
      obtain ⟨d, found⟩ := Option.ne_none_iff_exists'.1 left.2
      obtain ⟨e, found'⟩ := Option.ne_none_iff_exists'.1 right.2
      rw [insertedMatrix, entry_ofFn, if_pos ⟨left.1, right.1⟩]
      simp only [found, found', Option.getD_some]
    · obtain ⟨e, found⟩ := Option.ne_none_iff_exists'.1 (not_or.1 old).2
      rw [nodeDim_nodeOf, found]
      exact dims _ e mem found
  forgotten {m n _ dims project} h closed free := by
    have mirrored := mirrored h
    -- no dimension is set to zero, so that the forgotten ones are without bounds
    have entry (a b : Nat) : (forgottenMatrix m dims project).entry a b =
        if a = b then m.entry a b
        else if nodeDim a ∈ dims ∨ nodeDim b ∈ dims then .posInf else m.entry a b := by
      by_cases inside : a < 2 * n ∧ b < 2 * n
      · refine (mirrored.square.entry_mapEntries (absurd inside)).trans ?_
        rcases free with rfl | rfl
        · rfl
        · simp
      · have square : (forgottenMatrix m dims project).IsSquare (2 * n) :=
        mirrored.square.mapEntries _
        rw [square.entry_of_not_lt inside, mirrored.square.entry_of_not_lt inside, ite_self, ite_self]
    refine closed.of_nodes (φ := id) (F := fun a => nodeDim a ∈ dims) (fun _ => rfl) (fun a => ?_)
      (fun a b apart new => ?_) (fun a _ => ?_) (fun a b left right => ?_) fun _ _ mem => mem
    · rw [nodeDim_opposite]
    · rw [entry, if_neg apart, if_pos new]
    · rw [entry, if_pos rfl]
      by_cases inside : a < 2 * n
      · exact .inl (mirrored.diagonal a inside)
      · exact .inr (mirrored.square.entry_of_not_lt fun both => inside both.1)
    · rw [entry, if_neg (not_or.2 ⟨left, right⟩), ite_self]
      rfl
  append := append

/-! ### Octagons -/

structure MarkedOn (o : Octagon) (s : Space) (R : Nat → Prop) : Prop where
  space : o.space = s
  regular : o.IsRegular
  closed : o.empty = false → o.closed = true → o.matrix.IsClosedThrough R

theorem isReal_grow_append (s : Space) (size k d : Nat) :
    (s.grow (.append size k)).IsReal d ↔ s.IsReal d := by
  simp [Space.IsReal, Space.isInt, Space.grow, SpaceChange.append]

/-- No integer dimension becomes a real one. -/
def KeepsReals : Construction Octagon → Prop
  | .addDimensions v c _ =>
      ∀ d < v.space.size, (v.space.grow c).IsReal (c.shift d) → v.space.IsReal d
  | .removeDimensions v c => ∀ s, v.space.shrink c = .ok s → ∀ i < s.size, s.IsReal i →
      v.space.IsReal ((c.kept v.space.size).getD i 0)
  | .permuteDimensions v p => ∀ d < v.space.size, v.space.IsReal d → v.space.IsReal (p.preimage d)
  | _ => True

theorem isReal_preimage_of_exchange {dims : List Nat} {p : Permutation}
    (ok : Permutation.exchange s.size dims = .ok p) {d : Nat} (old : d < s.size)
    (real : s.IsReal d) : (s.grow (.append s.size dims.length)).IsReal (p.preimage d) := by
  rw [isReal_grow_append]
  rcases Permutation.preimage_of_exchange ok old with same | fresh
  · rwa [same]
  · have above : s.ints ≤ p.preimage d := (Nat.le_add_right s.ints s.reals).trans fresh
    simpa [Space.IsReal, Space.isInt] using above

theorem movesKeep_isReal {c : Construction Octagon} (valid : c.IsValid) (keeps : KeepsReals c) :
    MovesKeep Space.IsReal c := by
  cases c with
  | permuteDimensions v p => exact ⟨valid, keeps⟩
  | assignForms v dims forms => exact fun p ok d old real => isReal_preimage_of_exchange ok old real
  | assignTerms v dims ts => exact fun p ok d old real => isReal_preimage_of_exchange ok old real
  | addDimensions v c project => exact keeps
  | removeDimensions v c => exact keeps
  | _ => trivial

theorem keeps_markedOn :
    domain.Keeps (fun c => c.IsValid ∧ c.HasProperRanges ∧ KeepsReals c)
      (fun o => o.MarkedOn o.space o.space.IsReal) := by
  have marks : MarksKeep BoundMatrix.IsRegular (fun R m => m.IsClosedThrough R) Space.IsReal :=
    marksKeep_isClosedThrough (fun h => h.isMirrored) (fun _ _ real => real)
      fun s k d _ => isReal_grow_append s s.size k d
  refine (keeps_marked matricesKeep_isRegular marks
    (fun s is c admits distinct proper => ⟨distinct, proper admits.2.1⟩)
    fun c admits => movesKeep_isReal admits.1 admits.2.2).congr fun o => ⟨fun h => ?_, fun h => ?_⟩
  · exact ⟨rfl, ⟨h.square, h.matrix⟩, h.closed⟩
  · exact ⟨rfl, h.regular.square, h.regular.regular, h.closed⟩

end Octagon

end Enclosure
