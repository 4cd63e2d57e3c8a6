import Enclosure.Proofs.EnvironmentLattice
import Enclosure.Proofs.Octagon.Operations
import Enclosure.Proofs.Transfers

/-!
# Bounds by name

The nodes of an octagon over an environment are those of its variables.
-/

namespace Enclosure

open List Environment SpaceChange ExtRat

namespace BoundMatrix

/-! ### Nodes -/

abbrev NamedNode := String × Bool

abbrev NamedBounds := NamedNode → NamedNode → ExtRat

variable {e u : Environment} {m : BoundMatrix} {i j k : NamedNode} {a b : Nat}

def place (e : Environment) (i : NamedNode) : Option Nat := (e.dimension? i.1).map (node · i.2)

def negated (i : NamedNode) : NamedNode := (i.1, !i.2)

def unrelated : NamedBounds := fun i j => if i = j then .zero else .posInf

def named (e : Environment) (m : BoundMatrix) (i j : NamedNode) : ExtRat :=
  ((place e i).bind fun a => (place e j).map (m.entry a)).getD (unrelated i j)

theorem nodeDim_node (d : Nat) (positive : Bool) : nodeDim (node d positive) = d := by
  unfold nodeDim node
  split <;> omega

theorem place_eq_some_iff (he : e.IsValid) :
    place e i = some a ↔ ∃ d : Nat, e.vars[d]? = some i.1 ∧ node d i.2 = a := by
  simp only [place, Option.map_eq_some_iff, he.dimension?_eq_some_iff]

theorem place_negated : place e (negated i) = (place e i).map opposite := by
  unfold place negated
  cases e.dimension? i.1 with
  | none => rfl
  | some d => cases i.2 <;> simp [node, opposite]

theorem place_lt (he : e.IsValid) (found : place e i = some a) : a < 2 * e.size := by
  obtain ⟨d, old, rfl⟩ := (place_eq_some_iff he).1 found
  have inside : d < e.size := length_vars ▸ lt_of_getElem? old
  unfold node
  split <;> omega

theorem eq_iff_of_place (he : e.IsValid) (left : place e i = some a) (right : place e j = some b) :
    a = b ↔ i = j := by
  constructor
  · rintro rfl
    obtain ⟨x, s⟩ := i
    obtain ⟨y, t⟩ := j
    obtain ⟨d, first, rfl⟩ := (place_eq_some_iff he).1 left
    obtain ⟨d', second, same⟩ := (place_eq_some_iff he).1 right
    obtain ⟨rfl, rfl⟩ : d' = d ∧ t = s := by
      unfold node at same
      cases s <;> cases t <;> simp at same ⊢ <;> omega
    exact congrArg (·, t) (Option.some.inj (first.symm.trans second))
  · rintro rfl
    exact Option.some.inj (left.symm.trans right)

theorem exists_place (he : e.IsValid) (inside : a < 2 * e.size) : ∃ i, place e i = some a := by
  have low : nodeDim a < e.vars.length := length_vars ▸ nodeDim_lt.2 inside
  refine ⟨(e.vars[nodeDim a], a % 2 = 0), (place_eq_some_iff he).2
    ⟨nodeDim a, getElem?_eq_getElem low, ?_⟩⟩
  unfold node nodeDim
  split <;> simp_all <;> omega

theorem named_eq (left : place e i = some a) (right : place e j = some b) :
    named e m i j = m.entry a b := by
  rw [named, left, right]
  rfl

theorem named_of_none (unknown : place e i = none ∨ place e j = none) :
    named e m i j = unrelated i j := by
  rcases unknown with left | right
  · rw [named, left]
    rfl
  · rw [named, right]
    cases place e i <;> rfl

theorem place_cases (e : Environment) (i j : NamedNode) :
    (place e i = none ∨ place e j = none) ∨ ∃ a b, place e i = some a ∧ place e j = some b := by
  cases place e i <;> cases place e j <;> simp

theorem unrelated_self : unrelated i i = .zero := if_pos rfl

theorem unrelated_of_ne (apart : i ≠ j) : unrelated i j = .posInf := if_neg apart

theorem ne_of_place {c : Nat} (known : place e k = some c) (unknown : place e i = none) : i ≠ k := by
  rintro rfl
  simp [known] at unknown

theorem named_mapEntries (he : e.IsValid) (square : m.IsSquare (2 * e.size))
    {f : Nat → Nat → ExtRat → ExtRat} {g : NamedNode → NamedNode → ExtRat → ExtRat}
    (known : ∀ i j a b, place e i = some a → place e j = some b →
      f a b (m.entry a b) = g i j (m.entry a b))
    (unknown : ∀ i j, place e i = none ∨ place e j = none →
      g i j (unrelated i j) = unrelated i j) (i j : NamedNode) :
    named e (m.mapEntries f) i j = g i j (named e m i j) := by
  rcases place_cases e i j with none | ⟨a, b, left, right⟩
  · rw [named_of_none none, named_of_none none, unknown i j none]
  · rw [named_eq left right, named_eq left right, ← known i j a b left right]
    exact square.entry_mapEntries fun outside =>
      absurd ⟨place_lt he left, place_lt he right⟩ outside

theorem idxOf?_shifts {f : Environment} {c : SpaceChange} (he : e.IsValid) (hf : f.IsValid)
    (h : Embeds c e f) {x : String} {d : Nat} (place : f.vars[d]? = some x) :
    (c.shifts e.size).idxOf? d = e.dimension? x := by
  refine Option.ext fun n => ?_
  rw [idxOf?_eq_some_iff, he.dimension?_eq_some_iff]
  constructor
  · rintro ⟨inside, same, -⟩
    have low : n < e.size := by simpa [shifts] using inside
    rw [← h.moved n low, ← place]
    exact congrArg (f.vars[·]?) (by simpa [shifts] using same)
  · intro found
    have low : n < e.size := length_vars ▸ lt_of_getElem? found
    have moved := h.getElem?_vars_shift found
    obtain rfl : c.shift n = d := (getElem?_inj (lt_of_getElem? moved) hf.nodup).1
      (moved.trans place.symm)
    refine ⟨by simpa [shifts] using low, by simp [shifts], ?_⟩
    intro i before
    simpa [shifts] using (shift_lt_shift before).ne

theorem named_insertedMatrix {f : Environment} {c : SpaceChange} (he : e.IsValid) (hf : f.IsValid)
    (h : Embeds c e f) :
    named f (Octagon.insertedMatrix m (c.shifts e.size) (2 * f.size)) = named e m := by
  have old {i : NamedNode} (unknown : place f i = none) : place e i = none := by
    rw [place, Option.map_eq_none_iff, dimension?_eq_none_iff] at unknown ⊢
    intro known
    obtain ⟨d, found⟩ := getElem?_of_mem known
    exact unknown (mem_of_getElem? (h.getElem?_vars_shift found))
  have moved {i : NamedNode} {a : Nat} (found : place f i = some a) :
      (c.shifts e.size).idxOf? (nodeDim a) = e.dimension? i.1 ∧ ∀ d, nodeOf a d = node d i.2 := by
    obtain ⟨n, there, rfl⟩ := (place_eq_some_iff hf).1 found
    refine ⟨?_, fun d => ?_⟩
    · rw [nodeDim_node]
      exact idxOf?_shifts he hf h there
    · cases i.2 <;> simp [nodeOf, node]
  funext i j
  rcases place_cases f i j with none | ⟨a, b, left, right⟩
  · rw [named_of_none none, named_of_none (none.imp old old)]
  · have same := eq_iff_of_place hf left right
    rw [named_eq left right, Octagon.insertedMatrix, entry_ofFn,
      if_pos ⟨place_lt hf left, place_lt hf right⟩, (moved left).1, (moved right).1]
    unfold named place
    cases e.dimension? i.1 with
    | none => simp [unrelated, same]
    | some d =>
      cases e.dimension? j.1 with
      | none => simp [unrelated, same]
      | some d' => simp [(moved left).2, (moved right).2]

/-! ### Closure -/

def pivotNamed (F : NamedBounds) (k i j : NamedNode) : ExtRat :=
  (F i j).min ((F i k).boundSum (F k j))

def roundNamed (integer : String → Bool) (F : NamedBounds) (i j : NamedNode) : ExtRat :=
  if integer i.1 && integer j.1 then
    if j = negated i then (F i j).half.floor.twice else (F i j).floor
  else F i j

def strengthenNamed (F : NamedBounds) (i j : NamedNode) : ExtRat :=
  (F i j).min ((F i (negated i)).boundSum (F (negated j) j)).half

def zeroNamed (F : NamedBounds) (i j : NamedNode) : ExtRat :=
  if i = j then .zero else F i j

open Classical in
noncomputable def closeNamed (nodes : List NamedNode) (integer : String → Bool)
    (F : NamedBounds) : Option NamedBounds :=
  let short := nodes.foldl pivotNamed F
  if ∃ i, (short i i).sign < 0 then none
  else
    let strong := strengthenNamed (roundNamed integer short)
    if ∃ i, (strong i i).sign < 0 ∨
      ((strong i (negated i)).boundSum (strong (negated i) i)).sign < 0 then none
    else some (zeroNamed strong)

theorem min_posInf (v : ExtRat) : v.min .posInf = v := by
  rw [min_eq, min_eq_left (le_posInf v)]

theorem unrelated_negated (i : NamedNode) :
    unrelated i (negated i) = .posInf ∧ unrelated (negated i) i = .posInf := by
  obtain ⟨x, s⟩ := i
  cases s <;> simp [unrelated, negated]

theorem pivotNamed_of_none (unknown : place e k = none) : pivotNamed (named e m) k = named e m := by
  funext i j
  unfold pivotNamed
  by_cases same : i = k
  · subst same
    have zero (v : ExtRat) : zero.boundSum v = v := by
      cases v <;> simp [boundSum, add?, zero]
    rw [named_of_none (j := i) (.inl unknown), unrelated_self, zero, min_eq, min_self]
  · rw [named_of_none (.inr unknown), unrelated_of_ne same, posInf_boundSum, min_posInf]

section

variable (he : e.IsValid) (square : m.IsSquare (2 * e.size))
include he square

theorem named_pivot {c : Nat} (known : place e k = some c) :
    named e (m.pivot c) = pivotNamed (named e m) k := by
  funext i j
  refine named_mapEntries he square (g := fun i j v =>
    v.min ((named e m i k).boundSum (named e m k j))) (fun i j a b left right => ?_)
    (fun i j unknown => ?_) i j
  · rw [named_eq left known, named_eq known right]
  · rcases unknown with left | right
    · rw [named_of_none (.inl left), unrelated_of_ne (ne_of_place known left),
        posInf_boundSum, min_posInf]
    · rw [named_of_none (.inr right), unrelated_of_ne (ne_of_place known right).symm,
        boundSum_posInf, min_posInf]

theorem foldl_pivotNamed (nodes : List NamedNode) :
    nodes.foldl pivotNamed (named e m) = named e ((nodes.filterMap (place e)).foldl pivot m) := by
  induction nodes generalizing m with
  | nil => rfl
  | cons k nodes ih =>
    cases known : place e k with
    | none => rw [foldl_cons, pivotNamed_of_none known, filterMap_cons_none known, ih square]
    | some c =>
      rw [foldl_cons, ← named_pivot he square known, filterMap_cons_some known]
      exact ih (square.mapEntries _)

theorem named_roundIntegers {integer : String → Bool}
    (types : ∀ (d : Nat) x, e.vars[d]? = some x → e.space.isInt d = integer x) :
    named e (m.roundIntegers e.space) = roundNamed integer (named e m) := by
  have typed {i : NamedNode} {a : Nat} (found : place e i = some a) :
      e.space.isInt (nodeDim a) = integer i.1 := by
    obtain ⟨d, old, rfl⟩ := (place_eq_some_iff he).1 found
    rw [nodeDim_node, types d _ old]
  funext i j
  refine named_mapEntries he square (g := fun i j v => if integer i.1 && integer j.1 then
    if j = negated i then v.half.floor.twice else v.floor else v) (fun i j a b left right => ?_)
    (fun i j _ => ?_) i j
  · simp only [typed left, typed right,
      eq_iff_of_place he right (place_negated.trans (congrArg _ left))]
  · by_cases same : i = j
    · subst same
      have other : i ≠ negated i := by
        obtain ⟨x, s⟩ := i
        cases s <;> simp [negated]
      rw [unrelated_self]
      split
      · decide
      · rfl
    · rw [unrelated_of_ne same]
      split_ifs <;> rfl

theorem named_strengthen : named e m.strengthen = strengthenNamed (named e m) := by
  funext i j
  refine named_mapEntries he square (g := fun i j v => v.min
    ((named e m i (negated i)).boundSum (named e m (negated j) j)).half)
    (fun i j a b left right => ?_) (fun i j unknown => ?_) i j
  · rw [named_eq left (place_negated.trans (congrArg _ left)),
      named_eq (place_negated.trans (congrArg _ right)) right]
  · rcases unknown with left | right
    · rw [named_of_none (.inl left), (unrelated_negated i).1, posInf_boundSum]
      exact min_posInf _
    · rw [named_of_none (.inr right), (unrelated_negated j).2, boundSum_posInf]
      exact min_posInf _

theorem named_zeroDiagonal : named e m.zeroDiagonal = zeroNamed (named e m) := by
  funext i j
  refine named_mapEntries he square (g := fun i j v => if i = j then .zero else v)
    (fun i j a b left right => ?_) (fun i j _ => ?_) i j
  · simp only [eq_iff_of_place he left right]
  · unfold unrelated
    split <;> rfl

theorem exists_named_iff {P : Nat → Prop} {Q : NamedNode → Prop}
    (known : ∀ i a, place e i = some a → (P a ↔ Q i)) (unknown : ∀ i, place e i = none → ¬ Q i) :
    (∃ a < m.nodes, P a) ↔ ∃ i, Q i := by
  constructor
  · rintro ⟨a, inside, holds⟩
    obtain ⟨i, found⟩ := exists_place he (square.nodes ▸ inside)
    exact ⟨i, (known i a found).1 holds⟩
  · rintro ⟨i, holds⟩
    cases found : place e i with
    | none => exact absurd holds (unknown i found)
    | some a => exact ⟨a, square.nodes ▸ place_lt he found, (known i a found).2 holds⟩

theorem hasNegativeLoop_iff : m.hasNegativeLoop = true ↔ ∃ i, (named e m i i).sign < 0 := by
  rw [hasNegativeLoop, any_eq_true]
  simp only [mem_range, decide_eq_true_eq]
  refine exists_named_iff he square (fun i a found => by rw [named_eq found found])
    fun i unknown => ?_
  rw [named_of_none (.inl unknown), unrelated_self]
  decide

theorem isContradictory_iff :
    m.isContradictory = true ↔ ∃ i, (named e m i i).sign < 0 ∨
      ((named e m i (negated i)).boundSum (named e m (negated i) i)).sign < 0 := by
  rw [isContradictory, any_eq_true]
  simp only [mem_range, Bool.or_eq_true, decide_eq_true_eq]
  refine exists_named_iff he square (fun i a found => ?_) fun i unknown => ?_
  · have other : place e (negated i) = some (opposite a) := by
      rw [place_negated, found, Option.map_some]
    rw [named_eq found found, named_eq found other, named_eq other found]
  · rw [named_of_none (.inl unknown), named_of_none (.inl unknown), named_of_none (.inr unknown),
      (unrelated_negated i).1, (unrelated_negated i).2, unrelated_self]
    decide

end

def namedNodes (u : Environment) : List NamedNode :=
  u.vars.flatMap fun x => [(x, true), (x, false)]

theorem filterMap_place_namedNodes (he : e.IsValid) (hu : u.IsValid) (within : e.Within u) :
    (namedNodes u).filterMap (place e) = range (2 * e.size) := by
  have dims : u.vars.filterMap e.dimension? = range e.size := by
    obtain ⟨ints, reals⟩ := within.filter_vars hu he
    have known : u.vars.filterMap e.dimension? = e.vars.filterMap e.dimension? := by
      rw [vars, vars, ← ints, ← reals, ← filter_append, filterMap_filter]
      refine congrArg (filterMap · _) (funext fun x => ?_)
      unfold Environment.contains
      cases e.dimension? x <;> rfl
    have places : e.vars.map e.dimension? = (range e.size).map some := by
      refine ext_getElem (by simp [length_vars]) fun d left _ => ?_
      have inside : d < e.vars.length := by simpa using left
      rw [getElem_map, he.dimension?_eq_some_iff.2 (getElem?_eq_getElem inside)]
      simp
    calc u.vars.filterMap e.dimension? = (e.vars.map e.dimension?).filterMap id := by
          rw [known, filterMap_map]
          rfl
      _ = range e.size := by
          rw [places, filterMap_map]
          exact filterMap_some
  have pairs (n : Nat) : (range n).flatMap (fun d => [2 * d, 2 * d + 1]) = range (2 * n) := by
    induction n with
    | zero => rfl
    | succ n ih => simp [range_succ, ih, Nat.mul_succ]
  rw [namedNodes, ← pairs, ← dims]
  induction u.vars with
  | nil => rfl
  | cons x xs ih =>
    rw [flatMap_cons, filterMap_append, ih]
    cases found : e.dimension? x with
    | none => simp [place, found]
    | some d => simp [place, found, node]

theorem map_named_close? (he : e.IsValid) (hu : u.IsValid) (within : e.Within u)
    (square : m.IsSquare (2 * e.size)) :
    (m.close? e.space).map (named e) =
      closeNamed (namedNodes u) (fun x => decide (x ∈ u.ints)) (named e m) := by
  have short : (namedNodes u).foldl pivotNamed (named e m) = named e m.shortest := by
    rw [foldl_pivotNamed he square, filterMap_place_namedNodes he hu within, shortest, square.nodes]
  have square' : m.shortest.IsSquare (2 * e.size) := square.shortest
  have types (d : Nat) (x : String) (found : e.vars[d]? = some x) :
      e.space.isInt d = decide (x ∈ u.ints) := by
    rw [Bool.eq_iff_iff, he.isInt_iff found, decide_eq_true_iff]
    exact ⟨@within.ints x,
      fun integer => ((within.mem_vars_iff hu).1 x integer).1 (mem_of_getElem? found)⟩
  have strong : named e (m.shortest.roundIntegers e.space).strengthen =
      strengthenNamed (roundNamed (fun x => decide (x ∈ u.ints)) (named e m.shortest)) :=
    (named_strengthen he (square'.mapEntries _)).trans
      (congrArg strengthenNamed (named_roundIntegers he square' types))
  have square'' : (m.shortest.roundIntegers e.space).strengthen.IsSquare (2 * e.size) :=
    (square'.mapEntries _).mapEntries _
  have loops := hasNegativeLoop_iff he square'
  have contradicts := isContradictory_iff he square''
  have zeroed := named_zeroDiagonal he square''
  rw [strong] at contradicts zeroed
  unfold close? closeNamed
  rw [short]
  by_cases loop : m.shortest.hasNegativeLoop = true
  · rw [if_pos loop, if_pos (loops.1 loop), Option.map_none]
  · rw [if_neg loop, if_neg (mt loops.2 loop)]
    by_cases crossed : (m.shortest.roundIntegers e.space).strengthen.isContradictory = true
    · rw [if_pos crossed, if_pos (contradicts.1 crossed), Option.map_none]
    · rw [if_neg crossed, if_neg (mt contradicts.2 crossed), Option.map_some, zeroed]

end BoundMatrix

end Enclosure
