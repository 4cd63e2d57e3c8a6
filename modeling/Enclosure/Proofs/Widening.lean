import Enclosure.Proofs.Box.Points
import Enclosure.Proofs.Octagon.Points
import Mathlib.Data.Set.Finite.Lemmas

/-!
# Widening stops growing sequences

Widening a value again and again, each time with another one, gives a sequence that is constant from
some step on.
-/

namespace Enclosure

open List Op ExtRat Interval

variable {V : Type} {request : Request}

namespace DomainCore

/-- Each value of the sequence `a` is what widening the one before with a value of the
sequence `b` gives. -/
def Widens (D : DomainCore V) (request : Request) (a b : Nat → V) : Prop :=
  ∀ k, ∃ report after, (D.widening (a k) (b k)).run request report = .ok (a (k + 1), after)

/-- The test for inclusion finds the first value within the second one, whatever is asked. -/
def Finds (D : DomainCore V) (a b : V) : Prop :=
  ∀ query, Returns query (D.isLeq a b) (· = true)

/-- Widening two values gives one that is found to include both, and iterated widening comes to
a set of points that stays, which the test for inclusion notices. -/
structure WideningStops (D : DomainCore V) (formed : V → Prop) (γ : V → List Rat → Prop)
    (request : Request) : Prop where
  above : ∀ a b, formed a → formed b → D.space a = D.space b →
    Returns request (D.widening a b) fun w =>
      formed w ∧ D.space w = D.space a ∧ D.Finds a w ∧ D.Finds b w
  stops : ∀ a b : Nat → V, formed (a 0) → (∀ k, formed (b k) ∧ D.space (b k) = D.space (a 0)) →
    D.Widens request a b →
    ∃ n, ∀ k ≥ n, (∀ x, γ (a k) x ↔ γ (a n) x) ∧ D.Finds (a (k + 1)) (a k)

theorem WideningStops.ensures_widening {D : DomainCore V} {formed : V → Prop}
    {γ : V → List Rat → Prop} {a b : V} (stops : D.WideningStops formed γ request)
    (isLeq : ∀ a b, formed a → formed b → D.space a = D.space b →
      Ensures request True (D.isLeq a b) fun answer => answer = true → ∀ x, γ a x → γ b x)
    {risk : Prop} (ha : formed a) (hb : formed b) (same : D.space a = D.space b) :
    Ensures request risk (D.widening a b) fun w =>
      formed w ∧ D.space w = D.space a ∧ ∀ x, γ a x ∨ γ b x → γ w x := by
  have includes {v w : V} (hv : formed v) (hw : formed w) (same : D.space v = D.space w)
      (found : D.Finds v w) : ∀ x, γ v x → γ w x := by
    obtain ⟨_, _, run, _⟩ := found request .start
    have sound := (isLeq v w hv hw same).and (found request).ensures
    rcases sound .start with ⟨_, _, _, points, true⟩ | ⟨-, _, _, _, aborted⟩
    · exact points true
    · rw [run] at aborted
      exact absurd aborted (by simp)
  refine (stops.above a b ha hb same).ensures.mono ?_
  intro w ⟨hw, space, left, right⟩
  refine ⟨hw, space, fun x inside => ?_⟩
  rcases inside with inA | inB
  · exact includes ha hw space.symm left x inA
  · exact includes hb hw (same.symm.trans space.symm) right x inB

end DomainCore

/-! ### Bounds that are dropped for good -/

section Dropping

variable {ι α : Type}

private theorem constant_from {e : Nat → α} {limit : α}
    (step : ∀ k, e (k + 1) = e k ∨ e (k + 1) = limit) : ∃ n, ∀ k ≥ n, e k = e n := by
  by_cases reached : ∃ n, e n = limit
  · obtain ⟨n, start⟩ := reached
    refine ⟨n, fun k le => ?_⟩
    induction k, le using Nat.le_induction with
    | base => rfl
    | succ k _ ih => exact (step k).elim (·.trans ih) (·.trans start.symm)
  · push Not at reached
    refine ⟨0, fun k _ => ?_⟩
    induction k with
    | zero => rfl
    | succ k ih => exact ((step k).resolve_right (reached _)).trans (ih (Nat.zero_le k))

theorem exists_constant_of_each (full : Nat → Prop) (e : Nat → ι → α) (indices : Finset ι)
    (keeps : ∀ k, full k → full (k + 1))
    (each : ∀ m, (∀ k, full (m + k)) → ∀ i ∈ indices, ∃ n, ∀ k ≥ n, e (m + k) i = e (m + n) i) :
    (∀ k, ¬ full k) ∨ ∃ n, ∀ k ≥ n, full k ∧ ∀ i ∈ indices, e k i = e n i := by
  by_cases start : ∃ m, full m
  · refine .inr ?_
    obtain ⟨m, fullM⟩ := start
    have later (k : Nat) : full (m + k) := by
      induction k with
      | zero => exact fullM
      | succ k ih => exact keeps _ ih
    -- every value of the rest of the sequence has its own last change
    have each := each m later
    choose! last constant using each
    refine ⟨m + indices.sup last, fun k le => ?_⟩
    obtain ⟨j, rfl⟩ := Nat.exists_eq_add_of_le (le_trans (Nat.le_add_right m _) le)
    refine ⟨later j, fun i mem => ?_⟩
    have enough : last i ≤ indices.sup last := Finset.le_sup mem
    rw [constant i mem j (by omega), constant i mem _ enough]
  · exact .inl (not_exists.1 start)

end Dropping

section Run

variable {ι : Type} {D : DomainCore V} {formed settled void : V → Prop}
  {γ : V → List Rat → Prop} {bound : V → ι → ExtRat} {limit : ι → ExtRat}
  {indices : Space → Finset ι}

structure DomainCore.Drops (D : DomainCore V) (formed settled void : V → Prop)
    (bound : V → ι → ExtRat) (limit : ι → ExtRat) (indices : Space → Finset ι) (a b w : V) :
    Prop where
  formed : formed w
  space : D.space w = D.space a
  left : D.Finds a w
  right : D.Finds b w
  drops : settled a → settled w ∧
    ∀ i ∈ indices (D.space a), bound w i = bound a i ∨ bound w i = limit i
  fails : ¬ settled w → void a

theorem DomainCore.WideningStops.of_drops
    (step : ∀ a b, formed a → formed b → D.space a = D.space b →
      Returns request (D.widening a b) (D.Drops formed settled void bound limit indices a b))
    (empty : ∀ a b, formed a → D.space a = D.space b → void a → (∀ x, ¬ γ a x) ∧ D.Finds a b)
    (same : ∀ a b, formed a → formed b → D.space a = D.space b → settled a → settled b →
      (∀ i ∈ indices (D.space a), bound a i = bound b i) →
      (∀ x, γ a x ↔ γ b x) ∧ D.Finds a b) :
    D.WideningStops formed γ request where
  above a b ha hb space :=
    (step a b ha hb space).mono fun w h => ⟨h.formed, h.space, h.left, h.right⟩
  stops a b start operands widens := by
    have drops (k : Nat) (ha : formed (a k)) (space : D.space (a k) = D.space (a 0)) :
        D.Drops formed settled void bound limit indices (a k) (b k) (a (k + 1)) := by
      obtain ⟨_, _, run⟩ := widens k
      obtain ⟨hb, space'⟩ := operands k
      exact (step _ _ ha hb (space.trans space'.symm)).of_run run
    have invariant (k : Nat) : formed (a k) ∧ D.space (a k) = D.space (a 0) := by
      induction k with
      | zero => exact ⟨start, rfl⟩
      | succ k ih => exact ⟨(drops k ih.1 ih.2).formed, (drops k ih.1 ih.2).space.trans ih.2⟩
    have drop (k : Nat) := drops k (invariant k).1 (invariant k).2
    rcases exists_constant_of_each (fun k => settled (a k)) (fun k => bound (a k))
        (indices (D.space (a 0))) (fun k h => ((drop k).drops h).1)
        (fun m later i mem => constant_from fun k =>
          ((drop (m + k)).drops (later k)).2 i ((invariant (m + k)).2 ▸ mem)) with
      never | ⟨n, constant⟩
    · -- no value is ever settled, so none has a point
      have none (k : Nat) v (space : D.space (a k) = D.space v) :=
        empty (a k) v (invariant k).1 space ((drop k).fails (never (k + 1)))
      refine ⟨0, fun k _ => ⟨fun x => ?_, (none (k + 1) (a k) (drop k).space).2⟩⟩
      exact iff_of_false ((none k _ rfl).1 x) ((none 0 _ rfl).1 x)
    · have equal {k l : Nat} (le : n ≤ k) (le' : n ≤ l) :
          (∀ x, γ (a k) x ↔ γ (a l) x) ∧ D.Finds (a k) (a l) := by
        refine same _ _ (invariant k).1 (invariant l).1
          ((invariant k).2.trans (invariant l).2.symm) (constant k le).1 (constant l le').1 ?_
        rw [(invariant k).2]
        intro i mem
        rw [(constant k le).2 i mem, (constant l le').2 i mem]
      exact ⟨n, fun k le => ⟨(equal le (le_refl n)).1, (equal (Nat.le_succ_of_le le) le).2⟩⟩

end Run

/-! ### Octagons -/

namespace Octagon

variable {a b o w : Octagon} {x : List Rat}

/-- The left operand of a widening as it is used: closed, unless it comes from a widening. -/
def base (a : Octagon) : Octagon := if a.widened then a else a.close

def Settled (o : Octagon) : Prop := o.empty = false ∧ (o.widened = true ∨ o.closed = true)

theorem base_eq_self (settled : o.Settled) : o.base = o := by
  unfold base
  split
  · rfl
  · rename_i fresh
    have closed : o.closed = true := settled.2.resolve_left fresh
    rw [close, closed, Bool.true_or, if_pos rfl]

@[simp]
theorem space_base (o : Octagon) : o.base.space = o.space := by
  unfold base
  split
  · rfl
  · exact space_close o

theorem IsSquare.base (square : o.IsSquare) : o.base.IsSquare := by
  unfold Octagon.base
  split
  · exact square
  · exact square.close

theorem settled_base (full : o.base.empty = false) : o.base.Settled := by
  refine ⟨full, ?_⟩
  unfold base at full ⊢
  split
  · rename_i widened
    exact .inl widened
  · rename_i fresh
    rw [if_neg fresh] at full
    rcases o.close_cases with ⟨same, _ | empty⟩ | ⟨same, -⟩ | ⟨m, same, -⟩
    · exact .inr (by rwa [same])
    · simp [empty_of_empty empty] at full
    · simp [same] at full
    · exact .inr (by rw [same])

theorem empty_close_of_empty_base (empty : o.base.empty = true) : o.close.empty = true := by
  unfold base at empty
  split at empty
  · exact empty_of_empty empty
  · exact empty

private theorem within_of_base (square : a.IsSquare) (full : w.empty = false)
    (entries : ∀ i < 2 * a.space.size, ∀ j < 2 * a.space.size,
      a.base.matrix.entry i j ≤ w.matrix.entry i j) : a.within w = true := by
  cases empty : a.close.empty with
  | true => exact within_of_empty_close empty
  | false =>
    refine within_of_entries square full fun i left j right => le_trans ?_ (entries i left j right)
    unfold base
    split
    · exact entry_close_le square empty left right
    · exact le_refl _

def keptEntries (m n : BoundMatrix) : BoundMatrix :=
  m.mapEntries fun i j e => if n.entry i j ≤ e then e else .posInf

theorem widening_eq (same : a.space = b.space) : a.widening b = pure (
    if a.base.empty then b
    else if b.close.empty then a.base
    else ⟨a.base.space, keptEntries a.base.matrix b.close.matrix, false, false, true⟩) := by
  rw [widening, requireSame, if_pos same]
  change (if a.base.empty then _ else _) = _
  split
  · rfl
  · split <;> rfl

theorem finds_of_within (same : a.space = b.space) (within : a.within b = true) :
    core.Finds a b := by
  intro query
  refine Ensures.returns id (?_ : Ensures query False (a.isLeq b) _)
  rw [isLeq, requireSame, if_pos same]
  exact ensures_pure within

def positions (s : Space) : Finset (Nat × Nat) :=
  Finset.range (2 * s.size) ×ˢ Finset.range (2 * s.size)

theorem mem_positions {s : Space} {p : Nat × Nat} :
    p ∈ positions s ↔ p.1 < 2 * s.size ∧ p.2 < 2 * s.size := by
  rw [positions, Finset.mem_product, Finset.mem_range, Finset.mem_range]

def Drops (a b w : Octagon) : Prop :=
  core.Drops IsSquare Settled (·.close.empty = true) (fun o p => o.matrix.entry p.1 p.2)
    (fun _ => .posInf) positions a b w

section

variable (square : a.IsSquare) (square' : b.IsSquare) (same : a.space = b.space)
include square square' same

private theorem drops_keptEntries :
    Drops a b ⟨a.base.space, keptEntries a.base.matrix b.close.matrix, false, false, true⟩ := by
  have squareBase : a.base.matrix.IsSquare (2 * a.space.size) := space_base a ▸ square.base
  have squareKept : (keptEntries a.base.matrix b.close.matrix).IsSquare (2 * a.base.space.size) :=
    .mapEntries square.base _
  have entry {i j : Nat} left right :
      (keptEntries a.base.matrix b.close.matrix).entry i j =
        if b.close.matrix.entry i j ≤ a.base.matrix.entry i j then a.base.matrix.entry i j
        else .posInf :=
    squareBase.entry_mapEntries fun outside => absurd ⟨left, right⟩ outside
  refine ⟨squareKept, space_base a, finds_of_within (space_base a).symm ?_,
    finds_of_within (same.symm.trans (space_base a).symm) ?_, fun settled => ⟨⟨rfl, .inl rfl⟩, ?_⟩,
    fun unsettled => absurd ⟨rfl, .inl rfl⟩ unsettled⟩
  · refine within_of_base square rfl fun i left j right => ?_
    rw [entry left right]
    split
    · exact le_refl _
    · exact le_posInf _
  · refine within_of_entries square' rfl fun i left j right => ?_
    rw [entry (same ▸ left) (same ▸ right)]
    split
    · assumption
    · exact le_posInf _
  · intro p mem
    obtain ⟨left, right⟩ := mem_positions.1 mem
    rw [entry left right, base_eq_self settled]
    exact ite_eq_or_eq _ _ _

theorem returns_widening : Returns request (core.widening a b) (Drops a b) := by
  refine Ensures.returns id (?_ : Ensures request False (a.widening b) _)
  rw [widening_eq same]
  refine ensures_pure ?_
  cases empty : a.base.empty with
  | true =>
    -- nothing is known of the right operand, which takes the place of the left one
    have empty' := empty_close_of_empty_base empty
    refine ⟨square', same.symm, finds_of_within same (within_of_empty_close empty'),
      finds_of_within rfl (within_self square'), fun settled => ?_, fun _ => empty'⟩
    rw [base_eq_self settled, settled.1] at empty
    exact Bool.noConfusion empty
  | false =>
    rw [if_neg Bool.false_ne_true]
    cases empty' : b.close.empty with
    | true =>
      refine ⟨square.base, space_base a, finds_of_within (space_base a).symm ?_,
        finds_of_within (same.symm.trans (space_base a).symm) (within_of_empty_close empty'),
        fun settled => ⟨settled_base empty, fun p _ => ?_⟩,
        fun unsettled => absurd (settled_base empty) unsettled⟩
      · exact within_of_base square empty fun i _ j _ => le_refl _
      · exact .inl (by rw [if_pos rfl, base_eq_self settled])
    | false => exact drops_keptEntries square square' same

theorem hasPoint_congr (full : a.empty = false) (full' : b.empty = false)
    (entries : ∀ p ∈ positions a.space, a.matrix.entry p.1 p.2 = b.matrix.entry p.1 p.2) :
    a.HasPoint x ↔ b.HasPoint x := by
  have all (i j : Nat) : a.matrix.entry i j = b.matrix.entry i j := by
    by_cases inside : i < 2 * a.space.size ∧ j < 2 * a.space.size
    · exact entries (i, j) (mem_positions.2 inside)
    · rw [BoundMatrix.IsSquare.entry_of_not_lt square inside,
        BoundMatrix.IsSquare.entry_of_not_lt square' (same ▸ inside)]
  simp only [hasPoint_iff, full, full', same, BoundMatrix.Holds, all]

end

theorem wideningStops (request : Request) : core.WideningStops IsSquare HasPoint request := by
  refine .of_drops (fun a b square square' same => returns_widening square square' same) ?_ ?_
  · intro a b square same empty
    exact ⟨fun x => not_hasPoint_of_empty_close square empty,
      finds_of_within same (within_of_empty_close empty)⟩
  · intro a b square square' same settled settled' entries
    refine ⟨fun x => hasPoint_congr square square' same settled.1 settled'.1 entries,
      finds_of_within same ?_⟩
    cases empty : a.close.empty with
    | true => exact within_of_empty_close empty
    | false =>
      refine within_of_entries square settled'.1 fun i left j right => ?_
      exact (entry_close_le square empty left right).trans
        (entries (i, j) (mem_positions.2 ⟨left, right⟩)).le

end Octagon

/-! ### Boxes -/

namespace Box

variable {a b v w : Box} {x : List Rat} {s : Space} {d : Nat}

def boundOf (v : Box) (d : Nat) (upper : Bool) : ExtRat :=
  let i := (v.bounds .rational).getD d (.top .rational)
  if upper then i.hi.value else i.lo.value

def noBound (upper : Bool) : ExtRat := if upper then .posInf else .negInf

theorem boundOf_ranges {bs : List Interval} (inside : d < bs.length) (upper : Bool) :
    (ranges s bs).boundOf d upper = if upper then bs[d].hi.value else bs[d].lo.value := by
  rw [boundOf, bounds, getD_eq_getElem _ _ inside]

theorem hasPoint_iff (formed : v.IsFormed) (full : v.isEmpty = false) :
    v.HasPoint x ↔ v.space.IsPoint x ∧ ∀ d < v.space.size,
      v.boundOf d false ≤ .fin (x.getD d 0) ∧ .fin (x.getD d 0) ≤ v.boundOf d true := by
  cases v with
  | empty s => exact Bool.noConfusion full
  | ranges s bs =>
    refine and_congr_right fun _ => ?_
    constructor
    · intro inBox d inside
      have within : d < bs.length := formed.1.symm ▸ inside
      rw [boundOf_ranges within, boundOf_ranges within]
      exact inBox d _ (getElem?_eq_getElem within)
    · intro between d i found
      obtain ⟨within, rfl⟩ := List.getElem?_eq_some_iff.1 found
      have member := between d (formed.1 ▸ within)
      rwa [boundOf_ranges within, boundOf_ranges within] at member

theorem within_of_boundOf (formed : a.IsFormed) (formed' : b.IsFormed) (same : a.space = b.space)
    (full : b.isEmpty = false) (wider : ∀ d < a.space.size,
      b.boundOf d false ≤ a.boundOf d false ∧ a.boundOf d true ≤ b.boundOf d true) :
    a.within b = true := by
  cases b with
  | empty t => exact Bool.noConfusion full
  | ranges t ys =>
    cases a with
    | empty s => rfl
    | ranges s xs =>
      refine within_ranges.2 fun d i j left right => ?_
      obtain ⟨inside, rfl⟩ := List.getElem?_eq_some_iff.1 left
      obtain ⟨inside', rfl⟩ := List.getElem?_eq_some_iff.1 right
      have bounds := wider d (formed.1 ▸ inside)
      rw [boundOf_ranges inside, boundOf_ranges inside, boundOf_ranges inside',
        boundOf_ranges inside'] at bounds
      exact (leq_iff (formed.2 _ (getElem_mem _)) (formed'.2 _ (getElem_mem _))).2 bounds

theorem finds_of_within {k : Kind} (same : a.space = b.space) (within : a.within b = true) :
    (core k).Finds a b := by
  intro query
  refine Ensures.returns id (?_ : Ensures query False (a.isLeq b) _)
  rw [isLeq, requireSame, if_pos same]
  exact ensures_pure within

def sides (s : Space) : Finset (Nat × Bool) := Finset.range s.size ×ˢ Finset.univ

theorem mem_sides {p : Nat × Bool} : p ∈ sides s ↔ p.1 < s.size := by
  simp [sides]

def Drops (k : Kind) (a b w : Box) : Prop :=
  (core k).Drops IsFormed (·.isEmpty = false) (·.isEmpty = true) (fun v p => v.boundOf p.1 p.2)
    (fun p => noBound p.2) sides a b w

private theorem drops_ranges {xs ys : List Interval} (k : Kind) (formed : (ranges s xs).IsFormed)
    (formed' : (ranges s ys).IsFormed) :
    Drops k (ranges s xs) (ranges s ys) (ranges s (zipWith Interval.widening xs ys)) := by
  have length := length_zipWith formed formed' .widening
  have intervals {d : Nat} (inside : d < s.size) : ∃ i j, xs[d]? = some i ∧ ys[d]? = some j ∧
      i.isEmpty = false ∧ j.isEmpty = false ∧
      (zipWith .widening xs ys)[d]? = some (i.widening j) := by
    have left := getElem?_eq_getElem (formed.1.symm ▸ inside)
    have right := getElem?_eq_getElem (formed'.1.symm ▸ inside)
    refine ⟨_, _, left, right, formed.2 _ (mem_of_getElem? left),
      formed'.2 _ (mem_of_getElem? right), ?_⟩
    rw [getElem?_zipWith, left, right]
  have wide : (ranges s (zipWith .widening xs ys)).IsFormed := by
    refine ⟨length, fun k mem => ?_⟩
    obtain ⟨d, inside, rfl⟩ := getElem_of_mem mem
    obtain ⟨i, j, -, -, full, full', found⟩ := intervals (length ▸ inside)
    rw [(List.getElem?_eq_some_iff.1 found).2]
    exact isEmpty_widening full full'
  refine ⟨wide, rfl, finds_of_within rfl (within_ranges.2 ?_),
    finds_of_within rfl (within_ranges.2 ?_), fun _ => ⟨rfl, ?_⟩, (absurd rfl)⟩
  · intro d i k left found
    obtain ⟨_, j, left', -, full, full', found'⟩ :=
      intervals (formed.1 ▸ lt_of_getElem? left)
    obtain rfl := Option.some.inj (left.symm.trans left')
    obtain rfl := Option.some.inj (found.symm.trans found')
    exact (leq_widening full full').1
  · intro d j k right found
    obtain ⟨i, _, -, right', full, full', found'⟩ :=
      intervals (formed'.1 ▸ lt_of_getElem? right)
    obtain rfl := Option.some.inj (right.symm.trans right')
    obtain rfl := Option.some.inj (found.symm.trans found')
    exact (leq_widening full full').2
  · rintro ⟨d, upper⟩ mem
    obtain ⟨i, j, left, -, full, full', found⟩ := intervals (mem_sides.1 mem)
    obtain ⟨within, rfl⟩ := List.getElem?_eq_some_iff.1 left
    obtain ⟨within', value⟩ := List.getElem?_eq_some_iff.1 found
    rw [boundOf_ranges within, boundOf_ranges within', value, lo_widening full full',
      hi_widening full full']
    cases upper with
    | false => exact (ite_eq_or_eq _ negInf _).symm
    | true => exact (ite_eq_or_eq _ posInf _).symm

theorem returns_widening (k : Kind) (formed : a.IsFormed) (formed' : b.IsFormed)
    (same : a.space = b.space) : Returns request ((core k).widening a b) (Drops k a b) := by
  refine Ensures.returns id (?_ : Ensures request False (a.widening b) _)
  unfold widening
  rw [requireSame, if_pos same]
  cases a with
  | empty s => exact ensures_pure ⟨formed', same.symm, finds_of_within same rfl,
      finds_of_within rfl (within_self b), Bool.noConfusion, fun _ => rfl⟩
  | ranges s xs =>
    cases b with
    | empty t => exact ensures_pure ⟨formed, rfl, finds_of_within rfl (within_self _),
        finds_of_within same.symm rfl, fun full => ⟨full, fun p _ => .inl rfl⟩,
        (absurd rfl)⟩
    | ranges t ys =>
      obtain rfl : s = t := same
      have result := drops_ranges k formed formed'
      exact ensures_ofExcept (make_eq_ranges result.formed.1 result.formed.2) result

theorem wideningStops (k : Kind) (request : Request) :
    (core k).WideningStops IsFormed HasPoint request := by
  refine .of_drops (fun a b formed formed' same => returns_widening k formed formed' same) ?_ ?_
  · intro a b _ same empty
    cases a with
    | empty s => exact ⟨fun x => id, finds_of_within same rfl⟩
    | ranges s bs => exact Bool.noConfusion empty
  · intro a b formed formed' same full full' bounds
    have same : a.space = b.space := same
    have bound {d : Nat} (inside : d < a.space.size) upper :
        a.boundOf d upper = b.boundOf d upper := bounds (d, upper) (mem_sides.2 inside)
    refine ⟨fun x => ?_, finds_of_within same (within_of_boundOf formed formed' same full' ?_)⟩
    · rw [hasPoint_iff formed full, hasPoint_iff formed' full', ← same]
      refine and_congr_right fun _ => forall₂_congr fun d inside => ?_
      rw [bound inside, bound inside]
    · exact fun d inside => ⟨(bound inside false).ge, (bound inside true).le⟩

end Box

/-- Iterated widening of boxes, with bounds of any kind, and of octagons comes to an end: each
step includes both operands, the set of points is constant from some step on, and so is the
answer that nothing has changed. -/
theorem widening_stops (request : Request) :
    (∀ kind, (Box.domain kind).toDomainCore.WideningStops Box.IsFormed Box.HasPoint request) ∧
      Octagon.domain.toDomainCore.WideningStops Octagon.IsSquare Octagon.HasPoint request :=
  ⟨fun kind => Box.wideningStops kind request, Octagon.wideningStops request⟩

/-- A counter that starts at zero and is widened with ranges that grow forever loses its upper
bound in the first step, and then stays. -/
theorem counter_stops :
    let upTo (hi : ExtRat) : Box := .ranges ⟨1, 0⟩ [.ofExt (.fin 0) hi]
    let request : Request := ⟨.widening, .standard, []⟩
    let a (k : Nat) : Box := upTo (if k = 0 then .fin 0 else .posInf)
    let b (k : Nat) : Box := upTo (.fin (k + 1))
    (Box.domain .rational).Widens request a b ∧
      ∃ n, ∀ k ≥ n, (∀ x, (a k).HasPoint x ↔ (a n).HasPoint x) ∧
        (Box.domain .rational).Finds (a (k + 1)) (a k) := by
  intro upTo request a b
  have full {hi : ExtRat} (nonneg : .fin 0 ≤ hi) :
      (Interval.ofExt (.fin 0) hi).isEmpty = false := Interval.isEmpty_eq_false_iff.2 nonneg
  have formed {hi : ExtRat} (nonneg : .fin 0 ≤ hi) : (upTo hi).IsFormed :=
    ⟨rfl, fun i mem => by rw [List.mem_singleton.1 mem, full nonneg]⟩
  have left (k : Nat) : ExtRat.fin 0 ≤ if k = 0 then .fin 0 else .posInf := by
    split
    · exact le_refl _
    · exact ExtRat.le_posInf _
  have right (k : Nat) : ExtRat.fin 0 ≤ .fin (k + 1) := by
    rw [ExtRat.fin_le_fin]
    positivity
  have widens : (Box.domain .rational).Widens request a b := by
    intro k
    refine ⟨.start, .start, ?_⟩
    have wide : (Interval.ofExt (.fin 0) (if k = 0 then .fin 0 else .posInf)).widening
        (.ofExt (.fin 0) (.fin (k + 1))) = .ofExt (.fin 0) .posInf := by
      rw [Interval.widening, full (left k), full (right k)]
      cases k with
      | zero => decide +kernel
      | succ k => rfl
    change (Op.ofExcept (Box.make ⟨1, 0⟩ [Interval.widening _ _]) : Op Box) request .start = _
    rw [wide]
    rfl
  obtain ⟨boxes, -⟩ := widening_stops request
  exact ⟨widens, (boxes .rational).stops a b (formed (left 0))
    (fun k => ⟨formed (right k), rfl⟩) widens⟩

end Enclosure
