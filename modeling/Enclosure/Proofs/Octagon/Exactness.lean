import Enclosure.Proofs.Octagon.Projection
import Enclosure.Proofs.Relaxation

/-!
# Exact reports of octagons

A linear bound that is reported to be kept exactly is a bound on a difference of nodes, and lowering
one keeps the points that satisfy it and no others.
-/

namespace Enclosure

open List Op BoundMatrix SpaceChange LinearConstraint

namespace Octagon

variable {request : Request} {o a b : Octagon} {x : List Rat} {c : Rat} {bounds : List Interval}
  {terms : List (Nat × Rat)} {n : Nat} {bs : List NodeBound}

/-! ### Composition -/

section

variable (o a b : Octagon) (s : Space) (cs : List LinearConstraint) (dims : List Nat)
  (project : Bool) (change : SpaceChange)

instance (operation : DomainOperation) : (requireSame operation a b).Composed := by
  unfold requireSame
  infer_instance

instance (coeffs : List Rat) : (o.addBound coeffs c bounds).Composed := by
  unfold addBound
  dsimp only
  split <;> infer_instance

instance (bound : LinearBound) : (o.addLinearBound bounds bound).Composed := by
  unfold addLinearBound
  split <;> infer_instance

instance : (relaxAll bounds s cs).Composed := by
  induction cs with
  | nil => exact .pure _
  | cons c cs ih =>
    refine .andThen inferInstance fun result => ?_
    split <;> infer_instance

instance : (o.removeDimensions change).Composed := by
  unfold removeDimensions
  infer_instance

instance (p : Permutation) : (o.permuteDimensions p).Composed := by
  unfold permuteDimensions
  infer_instance

instance : (o.forget dims project).Composed := by
  unfold forget
  infer_instance

end

instance : core.Composed where
  ofBox s is := by
    unfold core ofIntervals
    infer_instance
  isBottom v := .pure _
  isTop v := .pure _
  isLeq a b := by
    unfold core isLeq
    infer_instance
  boundDimension v d := by
    unfold core boundDimension
    infer_instance
  toBox v := .pure _
  toLinear v := .pure _
  meet a b := by
    unfold core meet
    infer_instance
  meetLinear v cs := by
    unfold core meetLinear
    dsimp only
    split
    · infer_instance
    · refine .andThen inferInstance fun result => ?_
      split <;> infer_instance
  join a b := by
    unfold core join
    infer_instance
  widening a b := by
    unfold core widening
    infer_instance
  addDimensions v c project := by
    unfold core addDimensions
    infer_instance
  removeDimensions v c := inferInstanceAs (v.removeDimensions c).Composed
  permuteDimensions v p := inferInstanceAs (v.permuteDimensions p).Composed
  forget v dims project := inferInstanceAs (v.forget dims project).Composed

instance : domain.Composed where
  toComposed := inferInstanceAs core.Composed
  boundForm v f := by
    unfold domain boundForm
    dsimp only
    split
    · infer_instance
    · refine .andThen inferInstance fun direct => ?_
      split <;> infer_instance
  assignForms v dims forms := core.composed_assignByFresh v dims forms
  assignTerms v dims ts := core.composed_assignLinearized v dims ts

/-! ### Linear bounds -/

theorem hasPoint_tighten (square : o.IsSquare) {b : NodeBound} (left : b.a < 2 * o.space.size)
    (right : b.b < 2 * o.space.size) : (o.tighten b).HasPoint x ↔ o.HasPoint x ∧ b.HoldsAt x := by
  have narrows := narrows_tighten square b
  refine ⟨fun inside => ⟨narrows.within x inside, ?_⟩, fun h => narrows.keeps x h.1 h.2⟩
  refine (inside.holds b.a b.b).trans ?_
  change (BoundMatrix.tighten _ _ _ _).entry _ _ ≤ _
  rw [BoundMatrix.tighten, IsSquare.entry_mapEntries square
    fun outside => absurd ⟨left, right⟩ outside, if_pos (.inl ⟨rfl, rfl⟩), ExtRat.min_eq]
  exact min_le_right _ _

theorem hasPoint_tightenAll (square : o.IsSquare)
    (inside : ∀ b ∈ bs, b.a < 2 * o.space.size ∧ b.b < 2 * o.space.size) :
    (o.tightenAll bs).HasPoint x ↔ o.HasPoint x ∧ ∀ b ∈ bs, b.HoldsAt x := by
  induction bs generalizing o with
  | nil => exact ⟨fun h => ⟨h, by simp⟩, .left⟩
  | cons b bs ih =>
    obtain ⟨first, rest⟩ := forall_mem_cons.1 inside
    have next : ((o.tighten b).tightenAll bs).HasPoint x ↔ _ :=
      ih (narrows_tighten square b).square rest
    rw [hasPoint_tighten square first.1 first.2, and_assoc] at next
    rwa [forall_mem_cons]

theorem node_lt {d : Nat} (inside : d < n) (positive : Bool) : node d positive < 2 * n := by
  cases positive <;> simp only [node] <;> simp <;> omega

theorem lt_of_mem_directBounds? (inside : ∀ t ∈ terms, t.1 < n)
    (found : directBounds? terms c = some bs) : ∀ b ∈ bs, b.a < 2 * n ∧ b.b < 2 * n := by
  unfold directBounds? at found
  split at found
  · obtain rfl := Option.some.inj found
    simp
  · obtain rfl := Option.some.inj found
    rw [forall_mem_singleton] at inside ⊢
    exact ⟨node_lt inside _, opposite_lt.2 (node_lt inside _)⟩
  · split at found
    · obtain rfl := Option.some.inj found
      rw [forall_mem_cons, forall_mem_singleton] at inside
      rw [forall_mem_singleton]
      exact ⟨node_lt inside.1 _, node_lt inside.2 _⟩
    · simp at found
  · simp at found

theorem holdsAt_boundsOf_iff {coeffs : List Rat} (matters : allZero coeffs = false)
    (kept : (direct? coeffs c).isNone = false) :
    (∀ b ∈ boundsOf bounds coeffs c, b.HoldsAt x) ↔ dot coeffs x ≤ c := by
  obtain ⟨bs, found⟩ := Option.isSome_iff_exists.1 (Option.isNone_eq_false_iff.1 kept)
  obtain ⟨q, mem, nonzero⟩ : ∃ q ∈ coeffs, q ≠ 0 := by simpa [allZero] using matters
  obtain ⟨d, read⟩ := getElem?_of_mem mem
  have some := ne_nil_of_mem ((mem_terms (t := (d, q))).2 ⟨read, nonzero⟩)
  rw [boundsOf, found, Option.getD_some, holdsAt_directBounds?_iff ne_zero_of_mem_terms found,
    dot_eq_sumAt]
  exact forall_prop_of_true some

theorem lt_of_mem_boundsOf {coeffs : List Rat} (width : coeffs.length = n)
    (kept : (direct? coeffs c).isNone = false) :
    ∀ b ∈ boundsOf bounds coeffs c, b.a < 2 * n ∧ b.b < 2 * n := by
  obtain ⟨bs, found⟩ := Option.isSome_iff_exists.1 (Option.isNone_eq_false_iff.1 kept)
  rw [boundsOf, found]
  exact lt_of_mem_directBounds?
    (fun t mem => width ▸ (List.getElem?_eq_some_iff.1 (mem_terms.1 mem).1).1) found

theorem hasPoint_tightenAll_nodeBounds (square : o.IsSquare) {bs : List LinearBound}
    (shape : ∀ b ∈ bs, b.coeffs.length = o.space.size ∧ allZero b.coeffs = false)
    (kept : bs.any isLoosened = false) :
    (o.tightenAll (bs.flatMap (nodeBounds bounds))).HasPoint x ↔
      o.HasPoint x ∧ ∀ b ∈ bs, b.holdsAt x = true := by
  have each (b : LinearBound) (mem : b ∈ bs) : b.relation ≠ .below ∧ ∀ h ∈ halves b,
      h.1.length = o.space.size ∧ allZero h.1 = false ∧ (direct? h.1 h.2).isNone = false := by
    have exact := List.any_eq_false.1 kept b mem
    simp only [isLoosened, Bool.or_eq_true, decide_eq_true_eq, any_eq_true, not_or, not_exists,
      not_and, Bool.not_eq_true] at exact
    have wide : ∀ h ∈ halves b, h.1.length = o.space.size ∧ allZero h.1 = false :=
      forall_mem_halves.2 ⟨shape b mem, fun _ => by simpa [allZero] using shape b mem⟩
    exact ⟨exact.1, fun h half => ⟨(wide h half).1, (wide h half).2, exact.2 h half⟩⟩
  rw [hasPoint_tightenAll square]
  · refine and_congr_right fun _ => ?_
    rw [forall_mem_flatMap]
    refine forall₂_congr fun b mem => ?_
    rw [nodeBounds, forall_mem_flatMap, ← holdsAt_iff_halves (each b mem).1]
    exact forall₂_congr fun h half =>
      holdsAt_boundsOf_iff ((each b mem).2 h half).2.1 ((each b mem).2 h half).2.2
  · refine forall_mem_flatMap.2 fun b mem => forall_mem_flatMap.2 fun h half => ?_
    exact lt_of_mem_boundsOf ((each b mem).2 h half).1 ((each b mem).2 h half).2.2

/-! ### Constraints -/

variable {cs : List LinearConstraint} {s : Space}

theorem reports_relaxAll
    (regular : ∀ c ∈ cs, c.form.Valid ∧ c.form.Below s.size ∧ c.form.IsRegular) :
    Reports request (relaxAll bounds s cs)
      (fun result => ∀ bs, result = some bs →
        ∀ b ∈ bs, b.coeffs.length = s.size ∧ allZero b.coeffs = false)
      fun result => ∀ x, s.IsPoint x →
        ((∃ bs, result = some bs ∧ ∀ b ∈ bs, b.holdsAt x = true) ↔ ∀ c ∈ cs, c.Holds x) := by
  induction cs with
  | nil => exact reports_pure (by simp) (by simp)
  | cons c cs ih =>
    obtain ⟨⟨valid, below, finite⟩, others⟩ := forall_mem_cons.1 regular
    refine (LinearBound.reports_relax valid below finite).bind fun result shape => ?_
    cases result with
    | none =>
      -- the first constraint holds nowhere
      refine reports_pure (by simp) fun first x point => iff_of_false (by simp) fun all => ?_
      obtain ⟨bs, impossible, -⟩ := (first x point).2 (all c (by simp))
      simp at impossible
    | some bs =>
      refine (ih others).bind fun rest shape' => reports_pure ?_ ?_
      · rintro _ found b mem
        obtain ⟨ds, rfl, rfl⟩ := Option.map_eq_some_iff.1 found
        exact (mem_append.1 mem).elim (shape bs rfl b) (shape' ds rfl b)
      · intro later first x point
        rw [forall_mem_cons, ← first x point, ← later x point]
        cases rest with
        | none => simp
        | some ds => simp [or_imp, forall_and]

theorem reports_meetLinear (square : o.IsSquare)
    (regular : ∀ c ∈ cs, c.form.Valid ∧ c.form.Below o.space.size ∧ c.form.IsRegular) :
    Reports request (o.meetLinear cs) (fun w => w.IsSquare ∧ w.space = o.space)
      fun w => ∀ x, w.HasPoint x ↔ o.HasPoint x ∧ ∀ c ∈ cs, c.Holds x := by
  have space := space_close o
  unfold meetLinear
  dsimp only
  split
  · rename_i empty
    have none (x : List Rat) : ¬ o.HasPoint x := not_hasPoint_of_empty_close square empty
    refine reports_pure ⟨square.close, space⟩ fun x => ?_
    exact iff_of_false (mt (hasPoint_close square).1 (none x)) fun h => none x h.1
  · refine (reports_relaxAll (space ▸ regular)).bind fun result shape => ?_
    cases result with
    | none =>
      refine reports_pure ⟨isSquare_bottom _, space⟩ fun relaxed x => ?_
      refine iff_of_false not_hasPoint_bottom fun h => ?_
      obtain ⟨bs, impossible, -⟩ := (relaxed x (space ▸ h.1.isPoint)).2 h.2
      simp at impossible
    | some bs =>
      have narrows := narrows_tightenAll square.close (bs.flatMap (nodeBounds o.close.bounds))
      simp only [foldlM_addLinearBound, answer_map]
      refine .markInexactIf (reports_pure ⟨narrows.square.close, (space_close _).trans
        (narrows.space.trans space)⟩ fun kept relaxed x => ?_)
      rw [hasPoint_close narrows.square, hasPoint_tightenAll_nodeBounds square.close (shape bs rfl)
        (eq_false_of_ne_true kept), hasPoint_close square]
      refine and_congr_right fun inside => ?_
      rw [← relaxed x (space ▸ inside.isPoint)]
      simp

/-! ### Joins -/

theorem entry_le_of_within_close (square : a.IsSquare) (square' : b.IsSquare)
    (same : a.space = b.space) (full : a.close.empty = false)
    (within : a.close.within b.close = true) (i j : Nat) :
    a.close.matrix.entry i j ≤ b.close.matrix.entry i j := by
  by_cases inside : i < 2 * a.space.size ∧ j < 2 * a.space.size
  · unfold Octagon.within at within
    dsimp only at within
    rw [close_close, full, Bool.false_or, Bool.and_eq_true, le_iff square.close,
      space_close] at within
    exact within.2 i inside.1 j inside.2
  · rw [same, ← space_close b] at inside
    rw [IsSquare.entry_of_not_lt square'.close inside]
    exact ExtRat.le_posInf _

theorem holds_max_iff {m m' l : BoundMatrix}
    (entry : ∀ i j, l.entry i j = max (m.entry i j) (m'.entry i j))
    (within : ∀ i j, m.entry i j ≤ m'.entry i j) : l.Holds x ↔ m.Holds x ∨ m'.Holds x := by
  have greater : l.Holds x ↔ m'.Holds x :=
    forall₂_congr fun i j => by rw [entry, max_eq_right (within i j)]
  rw [greater, or_iff_right_of_imp]
  exact fun holds i j => (holds i j).trans (within i j)

theorem reports_join (square : a.IsSquare) (square' : b.IsSquare) (same : a.space = b.space) :
    Reports request (a.join b) (fun w => w.IsSquare ∧ w.space = a.space)
      fun w => ∀ x, w.HasPoint x ↔ a.HasPoint x ∨ b.HasPoint x := by
  have joined := square.close.mapMatrix (fun i j e => e.max (b.close.matrix.entry i j))
    (a.close.closed && b.close.closed) false false
  have none {o : Octagon} square empty x :
      ¬ o.HasPoint x := not_hasPoint_of_empty_close square empty
  rw [join, requireSame, if_pos same, pure_bind]
  dsimp only
  split
  · rename_i empty
    refine reports_pure ⟨square'.close, (space_close b).trans same.symm⟩ fun x => ?_
    rw [hasPoint_close square', or_iff_right (none square empty x)]
  split
  · rename_i empty
    refine reports_pure ⟨square.close, space_close a⟩ fun x => ?_
    rw [hasPoint_close square, or_iff_left (none square' empty x)]
  rename_i left right
  have left := eq_false_of_ne_true left
  have right := eq_false_of_ne_true right
  refine .markInexactIf (reports_pure ⟨joined, space_close a⟩ fun related x => ?_)
  have related : a.close.within b.close = true ∨ b.close.within a.close = true := by
    revert related
    cases a.close.within b.close <;> simp
  -- the greater one of two entries is always that of the same operand
  have union : Holds (a.close.matrix.mapEntries fun i j e => e.max (b.close.matrix.entry i j)) x ↔
      a.close.matrix.Holds x ∨ b.close.matrix.Holds x := by
    rcases related with first | second
    · exact holds_max_iff (entry_joined square b)
        (entry_le_of_within_close square square' same left first)
    · rw [or_comm]
      refine holds_max_iff (fun i j => (entry_joined square b i j).trans (max_comm _ _)) ?_
      exact entry_le_of_within_close square' square same.symm right second
  rw [← hasPoint_close square, ← hasPoint_close square', hasPoint_iff, hasPoint_iff, hasPoint_iff,
    space_close, space_close, ← same, union]
  tauto

/-! ### Dimensions that move -/

section Moves

variable {m m' : BoundMatrix} {y : List Rat} {φ : Nat → Nat} {p : Permutation}

theorem holds_of_nodes (square : m.IsSquare n) (holds : m'.Holds y)
    (entry : ∀ a < n, ∀ b < n, m'.entry (φ a) (φ b) = m.entry a b)
    (value : ∀ a < n, nodeValue y (φ a) = nodeValue x a) : m.Holds x := by
  intro a b
  by_cases inside : a < n ∧ b < n
  · rw [← value a inside.1, ← value b inside.2, ← entry a inside.1 b inside.2]
    exact holds _ _
  · rw [square.entry_of_not_lt inside]
    exact ExtRat.le_posInf _

theorem holds_insertedMatrix_iff {places : List Nat} (square : m.IsSquare (2 * places.length))
    (nodup : places.Nodup) (inside : ∀ d ∈ places, d < n) :
    (insertedMatrix m places (2 * n)).Holds y ↔ m.Holds (readAt places y) := by
  refine ⟨fun holds => ?_, holds_insertedMatrix⟩
  have place {a : Nat} (below : a < 2 * places.length) :
      nodeOf a (places.getD (nodeDim a) 0) < 2 * n ∧
        places.idxOf? (places.getD (nodeDim a) 0) = some (nodeDim a) ∧
        nodeValue y (nodeOf a (places.getD (nodeDim a) 0)) = nodeValue (readAt places y) a := by
    have within : nodeDim a < places.length := nodeDim_lt.2 below
    rw [getD_eq_getElem _ _ within]
    refine ⟨nodeOf_lt.2 (inside _ (getElem_mem within)), ?_, ?_⟩
    · rw [idxOf?_eq_some_iff]
      refine ⟨within, rfl, fun k less same => ?_⟩
      exact absurd (nodup.getElem_inj_iff.1 same) (by omega)
    · exact (nodeValue_readAt (getElem?_eq_getElem within)).symm
  refine holds_of_nodes square holds (fun a left b right => ?_) fun a left => (place left).2.2
  rw [insertedMatrix, entry_ofFn, if_pos ⟨(place left).1, (place right).1⟩,
    nodeDim_nodeOf, nodeDim_nodeOf, (place left).2.1, (place right).2.1]
  dsimp only
  rw [nodeOf_nodeOf_nodeDim, nodeOf_nodeOf_nodeDim]

theorem reports_addDimensions {c : SpaceChange} (square : o.IsSquare) (free : ¬ request.Limited)
    (fits : c.Inserts o.space) :
    Reports request (o.addDimensions c false)
      (fun w => w.IsSquare ∧ w.space = o.space.grow c ∧ ∀ y, y.length = (o.space.grow c).size →
        (w.Contains y ↔ o.Contains (readAt (c.shifts o.space.size) y)))
      fun _ => True := by
  have size : (c.shifts o.space.size).length = o.space.size := by simp [shifts]
  refine (reports_exceedsSize free _).bind fun tooLarge small => ?_
  rw [if_neg (by simp [small])]
  split
  · rename_i empty
    refine reports_pure ⟨isSquare_bottom _, rfl, fun y _ => ?_⟩ fun _ => trivial
    exact iff_of_false (fun inside => Bool.noConfusion inside.1) fun inside => by
      simp [inside.1] at empty
  · rename_i full
    refine reports_pure ⟨isSquare_ofFn _ _, rfl, fun y length => ?_⟩ fun _ => trivial
    have inserted : (insertedMatrix o.matrix (c.shifts o.space.size)
        (2 * (o.space.grow c).size)).Holds y ↔ _ :=
      holds_insertedMatrix_iff (size.symm ▸ square) (nodup_shifts c _) fun d mem => by
        obtain ⟨i, inside, rfl⟩ := mem_map.1 mem
        exact fits.shift_lt (mem_range.1 inside)
    rw [Contains, Contains, ← inserted, length_readAt, size]
    simp only [length, Bool.eq_false_iff.2 full]
    rfl

theorem holds_of_readMatrix_preimage (valid : p.Valid n) (square : m.IsSquare (2 * n))
    (holds : (readMatrix m p.preimage (2 * n)).Holds y) :
    m.Holds (readAt ((range n).map p.image) y) := by
  refine holds_of_nodes (φ := fun a => nodeOf a (p.image (nodeDim a))) square holds
    (fun a left b right => ?_) fun a left => ?_
  · have place {a : Nat} below : nodeOf a (p.image (nodeDim a)) < 2 * n :=
      nodeOf_lt.2 (valid.image_lt (nodeDim_lt.2 below))
    rw [readMatrix, entry_ofFn, if_pos ⟨place left, place right⟩, nodeDim_nodeOf,
      nodeDim_nodeOf, valid.preimage_image (nodeDim_lt.2 left),
      valid.preimage_image (nodeDim_lt.2 right), nodeOf_nodeOf_nodeDim, nodeOf_nodeOf_nodeDim]
  · have within : nodeDim a < n := nodeDim_lt.2 left
    exact (nodeValue_readAt (by simp [within])).symm

theorem holds_readMatrix_preimage_iff (valid : p.Valid n) (square : m.IsSquare (2 * n)) :
    (readMatrix m p.preimage (2 * n)).Holds y ↔
      m.Holds (readAt ((range n).map p.image) y) := by
  refine ⟨holds_of_readMatrix_preimage valid square, fun holds => ?_⟩
  refine holds_ofFn fun i left j right => ?_
  rw [← nodeValue_preimage valid left, ← nodeValue_preimage valid right]
  exact holds _ _

end Moves

/-! ### Assignment and substitution -/

structure IsReliable (o : Octagon) : Prop where
  real : o.space.ints = 0
  marked : o.MarkedOn o.space o.space.IsReal

namespace IsReliable

variable {forms : List LinearForm} {dims : List Nat} {size : Nat}

section

variable (h : o.IsReliable)
include h

theorem square : o.IsSquare := h.marked.regular.square

theorem formed : o.IsWellFormed := h.marked.isWellFormed h.real

theorem isPoint_iff : o.space.IsPoint x ↔ x.length = o.space.size :=
  ⟨fun point => point.length, Space.isPoint_of_real h.real⟩

theorem isReal (d : Nat) : o.space.IsReal d := by
  simp [Space.IsReal, Space.isInt, h.real]

theorem reports_extend (free : ¬ request.Limited) (n : Nat) :
    Reports request (o.addDimensions (.append o.space.size n) false)
      (fun w => w.IsReliable ∧ w.space = o.space.grow (.append o.space.size n) ∧
        ExtendsBy o.space.size n o.HasPoint w.HasPoint)
      fun _ => True := by
  have marked := keeps_markedOn.addDimensions o (.append o.space.size n) false
    ⟨trivial, trivial, fun d _ _ => h.isReal d⟩ h.marked
  have real : (o.space.grow (.append o.space.size n)).ints = 0 := by
    simp [Space.grow, append, h.real]
  have size := size_grow_append o.space n
  have grown := reports_addDimensions h.square free (inserts_append o.space n)
  refine (grown.and_yields marked).mono (fun w both => ?_) fun _ _ => id
  obtain ⟨⟨-, space, points⟩, marked⟩ := both
  refine ⟨⟨space ▸ real, marked⟩, space, fun z length => ?_⟩
  have same := points z (length.trans size.symm)
  rw [shifts_append] at same
  refine and_congr (iff_of_true ?_ (h.isPoint_iff.2 (by simp))) same
  exact space ▸ Space.isPoint_of_real real (length.trans size.symm)

theorem reports_define (space : o.space = s.grow (.append s.size forms.length))
    (valid : ∀ f ∈ forms, f.Valid) (below : ∀ f ∈ forms, f.Below s.size)
    (regular : ∀ f ∈ forms, f.IsRegular) :
    Reports request (o.meetLinear (definitions s.size forms))
      (fun w => w.IsReliable ∧ w.space = o.space)
      fun w => DefinesBy forms s.size o.HasPoint w.HasPoint := by
  have size := size_of_append space
  have met : Reports request (o.meetLinear (definitions s.size forms)) _ _ :=
    reports_meetLinear h.square ?_
  · refine (met.and_yields (keeps_markedOn.meetLinear o _ h.marked)).mono (fun w both => ?_)
      fun w _ points x vs old fresh => ?_
    · exact ⟨⟨both.1.2 ▸ h.real, both.2⟩, both.1.2⟩
    · rw [points, holds_definitions valid below old fresh.symm]
  · intro c mem
    obtain ⟨formed, inside⟩ := valid_definitions valid below c mem
    exact ⟨formed, size ▸ inside, isRegular_definitions valid regular c mem⟩

end

theorem reports_forgetOld (h : o.IsReliable) (grown : o.space.size = size + n)
    (inside : ∀ d ∈ dims, d < size) :
    Reports request (o.forget dims false)
      (fun w => w.IsReliable ∧ w.space = o.space ∧ ForgetsFirst dims size n o.HasPoint w.HasPoint)
      fun _ => True := by
  have below : ∀ d ∈ dims, d < o.space.size := fun d mem => by
    have := inside d mem
    omega
  have sound : Ensures request False (o.forget dims false) _ :=
    ensures_forget h.square below false
  have exact := yields_isForgotten h.formed h.square h.real dims false
  have marked := keeps_markedOn.forget o dims false h.marked
  refine (((sound.and_yields (exact.and marked)).returns id).reports
    (neverRegains _)).mono (fun w both => ?_) fun _ _ => id
  obtain ⟨⟨-, space, -⟩, points, marked⟩ := both
  refine ⟨⟨space ▸ h.real, marked⟩, space, forget_first inside
    (fun z inO => inO.isPoint.length.trans grown) fun y => ?_⟩
  rw [points, h.isPoint_iff, grown]
  simp

theorem reports_exchange {p : Permutation} (h : o.IsReliable) (exchanges : p.Exchanges size dims n)
    (grown : o.space.size = n) :
    Reports request (o.permuteDimensions p)
      (fun w => w.IsReliable ∧ w.space = o.space ∧ ReadsThrough n o.HasPoint w.HasPoint p)
      fun _ => True := by
  subst grown
  have sound : Ensures request False (o.permuteDimensions p) _ :=
    ensures_permuteDimensions h.square exchanges.valid
  have result := yields_permuteDimensions o p
  have valid : p.Valid p.size := by
    rw [Permutation.size, exchanges.valid.length]
    exact exchanges.valid
  have marked := keeps_markedOn.permuteDimensions o p ⟨valid, trivial, fun d _ _ => h.isReal _⟩
    h.marked
  refine (((sound.and_yields (result.and marked)).returns id).reports
    (neverRegains _)).mono (fun w both => ?_) fun _ _ => id
  obtain ⟨⟨-, _, keeps⟩, ⟨-, rfl⟩, marked⟩ := both
  refine ⟨⟨h.real, marked⟩, rfl, fun z length => ⟨fun inside => ?_, ?_⟩⟩
  · refine hasPoint_iff.2 ⟨inside.not_empty, h.isPoint_iff.2 (by simp), ?_⟩
    exact holds_of_readMatrix_preimage exchanges.valid h.square (h.square.nodes ▸ inside.holds)
  · exact keeps z (h.isPoint_iff.2 length)

theorem reports_dropFresh (h : o.IsReliable) (space : o.space = s.grow (.append s.size n)) :
    Reports request (o.removeDimensions (.dropLast s.size n))
      (fun w => w.space = s ∧ DropsLast s.size n o.HasPoint w.HasPoint) fun _ => True := by
  have fits : (dropLast s.size n).Removes o.space :=
    space ▸ removes_dropLast s n
  have grown := size_of_append space
  have sound : Ensures request False (o.removeDimensions _) _ :=
    ensures_removeDimensions h.square fits
  have exact := yields_isRestricted h.formed h.square h.real (.dropLast s.size n)
  refine (((sound.and_yields exact).returns id).reports
    (neverRegains _)).mono (fun w both => ?_) fun _ _ => id
  obtain ⟨⟨-, result, -⟩, points⟩ := both
  rw [space, shrink_dropLast] at result
  refine ⟨result, drop_last (fun z inO => inO.isPoint.length.trans grown) fun x => ?_⟩
  rw [points, grown, kept_dropLast]

variable {v : Octagon} (h : v.IsReliable) (free : ¬ request.Limited)
  (same : dims.length = forms.length) (inside : ∀ d ∈ dims, d < v.space.size)
  (valid : ∀ f ∈ forms, f.Valid) (below : ∀ f ∈ forms, f.Below v.space.size)
  (regular : ∀ f ∈ forms, f.IsRegular)

include h free same inside valid below regular

theorem reports_assignForms (nodup : dims.Nodup) :
    Reports request (core.assignByFresh v dims forms) (fun w => w.space = v.space)
      fun w => ∀ y, w.HasPoint y ↔ ∃ x, v.HasPoint x ∧ Assigns dims forms x y := by
  obtain ⟨_, exchange, exchanges⟩ := Permutation.exchange_spec inside
  rw [DomainCore.assignByFresh, if_neg (by simp [same])]
  refine (h.reports_extend free dims.length).bind ?_
  rintro _ ⟨grownReliable, space₁, inGrown⟩
  have size₁ := size_of_append space₁
  refine (grownReliable.reports_define (same ▸ space₁) valid below regular).bind ?_
  rintro _ ⟨definedReliable, space₂⟩
  refine (definedReliable.reports_forgetOld (space₂ ▸ size₁) inside).bind ?_
  rintro _ ⟨forgottenReliable, space₃, inForgotten⟩
  refine .ofExceptBind exchange ?_
  refine (forgottenReliable.reports_exchange exchanges (by rw [space₃, space₂, size₁])).bind ?_
  rintro _ ⟨exchangedReliable, space₄, inExchanged⟩
  refine (exchangedReliable.reports_dropFresh
    (space₄.trans (space₃.trans (space₂.trans space₁)))).mono (fun w result => result.1) ?_
  rintro w ⟨-, inResult⟩ - - - inDefined -
  exact image_of_steps exchanges same inside (fun x inV => inV.isPoint.length) inGrown nodup
    inDefined inForgotten inExchanged inResult

theorem reports_substituteForms :
    Reports request (domain.substituteForms v dims forms) (fun w => w.space = v.space)
      fun w => ∀ x, w.HasPoint x ↔ ∃ y, Assigns dims forms x y ∧ v.HasPoint y := by
  obtain ⟨_, exchange, exchanges⟩ := Permutation.exchange_spec inside
  rw [Domain.substituteForms, if_neg (by simp [same])]
  refine (h.reports_extend free dims.length).bind ?_
  rintro _ ⟨grownReliable, space₁, inGrown⟩
  have size₁ := size_of_append space₁
  refine .ofExceptBind exchange ?_
  refine (grownReliable.reports_exchange exchanges size₁).bind ?_
  rintro _ ⟨exchangedReliable, space₂, inExchanged⟩
  refine (exchangedReliable.reports_define (by rw [space₂, space₁, same]) valid below
    regular).bind ?_
  rintro _ ⟨definedReliable, space₃⟩
  refine (definedReliable.reports_dropFresh (space₃.trans (space₂.trans space₁))).mono
    (fun w result => result.1) ?_
  rintro w ⟨-, inResult⟩ - inDefined - -
  exact preimage_of_steps exchanges same inside (fun x inV => inV.isPoint.length) inGrown
    inExchanged inDefined inResult

end IsReliable

end Octagon

end Enclosure
