import Enclosure.Proofs.Octagon.RealClosure

/-!
# Joins and projections of octagons over real dimensions

The bounds of a strongly closed matrix are attained.
-/

namespace Enclosure

open List ExtRat BoundMatrix Space Op Domain

namespace Octagon

variable {request : Request} {m : BoundMatrix} {n : Nat} {o a b c : Octagon} {dims : List Nat}
  {x y z : List Rat}

theorem MarkedOn.isWellFormed (h : o.MarkedOn o.space o.space.IsReal) (real : o.space.ints = 0) :
    o.IsWellFormed := by
  have all (d : Nat) : o.space.IsReal d := by simp [IsReal, isInt, real]
  exact ⟨h.regular.regular, fun full closed =>
    (h.regular.regular full).isStronglyClosed (h.closed full closed) fun d _ => all d⟩

theorem IsWellFormed.points_close (formed : o.IsWellFormed) (real : o.space.ints = 0)
    (full : o.close.empty = false) : o.close.matrix.IsStronglyClosed o.space.size ∧
      ∀ x, o.HasPoint x ↔ x.length = o.space.size ∧ o.close.matrix.Holds x := by
  rcases formed.close_cases real with ⟨empty, -⟩ | ⟨-, closed, points⟩
  · simp [empty] at full
  · refine ⟨closed, fun x => ?_⟩
    rw [← points x]
    exact ⟨.right, fun inside => ⟨isPoint_of_real real inside.2.1, inside⟩⟩

theorem IsWellFormed.entry_close_le_of_points (formed : a.IsWellFormed) (real : a.space.ints = 0)
    (full : a.close.empty = false) (around : ∀ x, a.HasPoint x → c.HasPoint x) {i j : Nat}
    (left : i < 2 * a.space.size) (right : j < 2 * a.space.size) :
    a.close.matrix.entry i j ≤ c.matrix.entry i j := by
  obtain ⟨closed, points⟩ := formed.points_close real full
  refine closed.entry_le_of_holds (fun x length holds => ?_) left right
  exact (around x ((points x).2 ⟨length, holds⟩)).holds

theorem joining_least (formed : a.IsWellFormed) (formed' : b.IsWellFormed) (square : a.IsSquare)
    (square' : b.IsSquare) (fits : c.IsSquare) (same : a.space = b.space)
    (same' : a.space = c.space) (real : a.space.ints = 0)
    (around : ∀ x, a.HasPoint x → c.HasPoint x) (around' : ∀ x, b.HasPoint x → c.HasPoint x)
    (inside : (joining a b).HasPoint x) : c.HasPoint x := by
  unfold joining at inside
  split at inside
  · exact around' x ((hasPoint_close square').1 inside)
  · rename_i left
    split at inside
    · exact around x ((hasPoint_close square).1 inside)
    · rename_i right
      have left := eq_false_of_ne_true left
      have right := eq_false_of_ne_true right
      obtain ⟨closed, points⟩ := formed.points_close real left
      obtain ⟨z, length, holds⟩ := closed.exists_point
      -- there is a point, so that the octagon around the operands is not empty
      have full : c.empty = false := (around z ((points z).2 ⟨length, holds⟩)).not_empty
      have point : c.space.IsPoint x := by
        rw [← same', ← space_close a]
        exact inside.isPoint
      refine hasPoint_iff.2 ⟨full, point, fun i j => ?_⟩
      by_cases within : i < 2 * a.space.size ∧ j < 2 * a.space.size
      · have first := formed.entry_close_le_of_points real left around within.1 within.2
        rw [same] at real within
        have second := formed'.entry_close_le_of_points real right around' within.1 within.2
        refine (inside.holds i j).trans ?_
        exact (entry_joined square b i j).le.trans (max_le first second)
      · have missing : c.matrix.entry i j = .posInf := by
          rw [same'] at within
          exact IsSquare.entry_of_not_lt fits within
        rw [missing]
        exact le_posInf _

/-! ### Dimensions that are forgotten -/

/-- The points are those that agree with a point of the octagon outside the given dimensions, and
that are zero on them after a projection. -/
def IsForgotten (o : Octagon) (dims : List Nat) (project : Bool) (w : Octagon) : Prop :=
  ∀ y, w.HasPoint y ↔
    (o.space.IsPoint y ∧ ∃ x, o.HasPoint x ∧ ∀ d, d ∉ dims → y.getD d 0 = x.getD d 0) ∧
      (project = true → ∀ d ∈ dims, y.getD d 0 = 0)

theorem entry_forgottenMatrix (square : m.IsSquare n) {project : Bool} {i j : Nat} (left : i < n)
    (right : j < n) : (forgottenMatrix m dims project).entry i j =
      if i = j then m.entry i j
      else if nodeDim i ∈ dims ∨ nodeDim j ∈ dims then
        if project && j = opposite i then .zero else .posInf
      else m.entry i j :=
  square.entry_mapEntries fun outside => absurd ⟨left, right⟩ outside

theorem holdsOn_of_forgottenMatrix {project : Bool} (square : m.IsSquare (2 * n))
    (holds : (forgottenMatrix m dims project).Holds y) :
    m.HoldsOn ((range n).filter (· ∉ dims)) y := by
  intro i j q left right bound
  obtain ⟨inside, kept⟩ : nodeDim i < n ∧ nodeDim i ∉ dims := by simpa using left
  obtain ⟨inside', kept'⟩ : nodeDim j < n ∧ nodeDim j ∉ dims := by simpa using right
  refine holds_iff.1 holds i j q ?_
  rwa [Bounds, entry_forgottenMatrix square (nodeDim_lt.1 inside) (nodeDim_lt.1 inside'),
    if_neg (not_or.2 ⟨kept, kept'⟩), ite_self]

theorem eq_zero_of_forgottenMatrix (square : m.IsSquare (2 * n)) {d : Nat} (inside : d < n)
    (mem : d ∈ dims) (holds : (forgottenMatrix m dims true).Holds y) : y.getD d 0 = 0 := by
  have dim : nodeDim (2 * d) = d := by simp [nodeDim]
  have below : 2 * d < 2 * n := by omega
  have zero {i : Nat} (left : i < 2 * n) (mem : nodeDim i ∈ dims) :
      .fin (nodeValue y i - nodeValue y (opposite i)) ≤ fin 0 := by
    have bound := holds i (opposite i)
    rwa [entry_forgottenMatrix square left (opposite_lt.2 left), if_neg (ne_opposite i),
      if_pos (.inl mem), if_pos (by simp)] at bound
  have upper := zero below (dim.symm ▸ mem)
  have lower := zero (opposite_lt.2 below) (by rwa [nodeDim_opposite, dim])
  simp only [nodeValue_opposite, nodeValue_two_mul, fin_le_fin] at upper lower
  linarith

theorem ensures_isForgotten (formed : o.IsWellFormed) (square : o.IsSquare)
    (real : o.space.ints = 0) (below : ∀ d ∈ dims, d < o.space.size) (project : Bool) :
    Ensures request False (o.forget dims project) (o.IsForgotten dims project) := by
  refine ((ensures_forget square below project).and_yields (yields_forget o dims project)).mono
    fun w both y => ?_
  obtain ⟨⟨-, -, keeps⟩, result⟩ := both
  constructor
  · intro inside
    rcases result with ⟨empty, rfl⟩ | ⟨full, -, rfl⟩
    · have none := not_hasPoint_of_empty_close square empty ((hasPoint_close square).1 inside)
      exact none.elim
    · obtain ⟨closed, points⟩ := formed.points_close real full
      have point : o.space.IsPoint y := by
        rw [← space_close o]
        exact inside.isPoint
      -- the entries outside the forgotten dimensions extend to a point of the octagon
      obtain ⟨z, length, holds, agree⟩ := closed.toIsClosed.exists_holds_of_holdsOn point.length
        (holdsOn_of_forgottenMatrix closed.square inside.holds)
      refine ⟨⟨point, z, (points z).2 ⟨length, holds⟩, fun d kept => ?_⟩, fun zero d mem => ?_⟩
      · by_cases old : d < o.space.size
        · have value := agree (2 * d) (by simp [nodeDim, old, kept])
          rw [nodeValue_two_mul, nodeValue_two_mul] at value
          exact value.symm
        · rw [getD_eq_default _ _ (point.length ▸ not_lt.1 old),
            getD_eq_default _ _ (length ▸ not_lt.1 old)]
      · subst zero
        exact eq_zero_of_forgottenMatrix closed.square (below d mem) mem inside.holds
  · intro h
    obtain ⟨⟨point, x, inside, agree⟩, zeros⟩ := h
    exact keeps x y inside point agree zeros

theorem yields_isForgotten (formed : o.IsWellFormed) (square : o.IsSquare)
    (real : o.space.ints = 0) (dims : List Nat) (project : Bool) :
    Yields (o.forget dims project) (o.IsForgotten dims project) := by
  by_cases below : ∀ d ∈ dims, d < o.space.size
  · exact yields_of_ensures fun _ => ensures_isForgotten formed square real below project
  · refine (yields_forget o dims project).mono fun w result y => ?_
    rcases result with ⟨empty, rfl⟩ | ⟨-, inside, -⟩
    · -- an empty octagon is returned before its dimensions are looked at
      have none {x : List Rat} : ¬ o.HasPoint x := not_hasPoint_of_empty_close square empty
      refine iff_of_false (fun inside => none ((hasPoint_close square).1 inside)) fun h => ?_
      obtain ⟨⟨-, x, inside, -⟩, -⟩ := h
      exact none inside
    · exact absurd inside below

/-! ### Dimensions that are removed -/

/-- The points are what is left of the points of the octagon without the removed dimensions. -/
def IsRestricted (o : Octagon) (change : SpaceChange) (w : Octagon) : Prop :=
  ∀ z, w.HasPoint z ↔ ∃ x, o.HasPoint x ∧ z = readAt (change.kept o.space.size) x

theorem nodeOf_nodeOf_nodeDim (a i : Nat) : nodeOf (nodeOf a i) (nodeDim a) = a := by
  unfold nodeOf nodeDim
  omega

theorem entry_readMatrix (length : dims.length = n) {a b i j : Nat}
    (left : dims[i]? = some (nodeDim a)) (right : dims[j]? = some (nodeDim b)) :
    (readMatrix m (dims.getD · 0) (2 * n)).entry (nodeOf a i) (nodeOf b j) = m.entry a b := by
  have node {a i : Nat} (found : dims[i]? = some (nodeDim a)) : nodeOf a i < 2 * n ∧
      nodeOf (nodeOf a i) (dims.getD (nodeDim (nodeOf a i)) 0) = a := by
    rw [nodeDim_nodeOf, getD_eq_getElem?_getD, found, Option.getD_some, nodeOf_nodeOf_nodeDim]
    exact ⟨nodeOf_lt.2 (length ▸ lt_of_getElem? found), rfl⟩
  obtain ⟨inside, same⟩ := node left
  obtain ⟨inside', same'⟩ := node right
  rw [readMatrix, entry_ofFn, if_pos ⟨inside, inside'⟩, same, same']

theorem holds_readMatrix_iff (length : dims.length = n) :
    (readMatrix m (dims.getD · 0) (2 * n)).Holds (readAt dims x) ↔ m.HoldsOn dims x := by
  constructor
  · intro holds a b q left right bound
    obtain ⟨i, found⟩ := getElem?_of_mem left
    obtain ⟨j, found'⟩ := getElem?_of_mem right
    have value {a i : Nat} (found : dims[i]? = some (nodeDim a)) :
        nodeValue (readAt dims x) (nodeOf a i) = nodeValue x a := by
      rw [nodeValue_readAt ((nodeDim_nodeOf a i).symm ▸ found), nodeOf_nodeOf_nodeDim]
    rw [← value found, ← value found']
    refine holds_iff.1 holds _ _ q ?_
    rwa [Bounds, entry_readMatrix length found found']
  · intro on
    refine holds_ofFn fun i left j right => ?_
    have value {i : Nat} (inside : i < 2 * n) : nodeDim i < dims.length ∧
        nodeValue (readAt dims x) i = nodeValue x (nodeOf i (dims.getD (nodeDim i) 0)) := by
      have within : nodeDim i < dims.length := length ▸ nodeDim_lt.2 inside
      rw [getD_eq_getElem _ _ within]
      exact ⟨within, nodeValue_readAt (getElem?_eq_getElem within)⟩
    obtain ⟨within, read⟩ := value left
    obtain ⟨within', read'⟩ := value right
    rw [read, read']
    refine le_iff_forall_fin.2 fun q bound => fin_le_fin.2 (on _ _ q ?_ ?_ bound)
    · rw [nodeDim_nodeOf, getD_eq_getElem _ _ within]
      exact getElem_mem within
    · rw [nodeDim_nodeOf, getD_eq_getElem _ _ within']
      exact getElem_mem within'

theorem exists_readAt_eq (nodup : dims.Nodup) (below : ∀ d ∈ dims, d < n)
    (length : z.length = dims.length) : ∃ y, y.length = n ∧ readAt dims y = z := by
  refine ⟨(range n).map fun d => z.getD (dims.idxOf d) 0, by simp, ?_⟩
  refine ext_getElem (by simp [length]) fun i inside inside' => ?_
  have within : i < dims.length := length ▸ inside'
  have old : dims[i] < n := below _ (getElem_mem within)
  simp [readAt, old, Nodup.idxOf_getElem nodup, inside']

theorem yields_isRestricted (formed : o.IsWellFormed) (square : o.IsSquare)
    (real : o.space.ints = 0) (change : SpaceChange) :
    Yields (o.removeDimensions change) (o.IsRestricted change) := by
  refine (yields_removeDimensions o change).mono fun w result z => ?_
  obtain ⟨s, shrinks, ⟨empty, rfl⟩ | ⟨full, length, rfl⟩⟩ := result
  · refine iff_of_false not_hasPoint_bottom fun h => ?_
    obtain ⟨x, inside, -⟩ := h
    exact not_hasPoint_of_empty_close square empty inside
  · obtain ⟨closed, points⟩ := formed.points_close real full
    constructor
    · intro inside
      obtain ⟨y, size, rfl⟩ := exists_readAt_eq (nodup_range.filter _)
        (fun d mem => SpaceChange.lt_of_mem_kept mem)
        (inside.isPoint.length.trans length.symm)
      -- so do the entries that are left of a vector without the removed dimensions
      obtain ⟨x, inX, holds, agree⟩ := closed.toIsClosed.exists_holds_of_holdsOn size
        ((holds_readMatrix_iff length).1 inside.holds)
      refine ⟨x, (points x).2 ⟨inX, holds⟩, map_congr_left fun d mem => ?_⟩
      have value := agree (2 * d) (by rwa [nodeDim, Nat.mul_div_cancel_left d two_pos])
      rwa [nodeValue_two_mul, nodeValue_two_mul, eq_comm] at value
    · intro h
      obtain ⟨x, inside, rfl⟩ := h
      have without : s.ints = 0 := by
        unfold shrink at shrinks
        split at shrinks
        · cases shrinks
          simp [real]
        · cases shrinks
      have point : s.IsPoint (readAt (change.kept o.space.size) x) :=
        isPoint_of_real without (by rw [length_readAt, length])
      have holds := ((points x).1 inside).2
      exact hasPoint_iff.2 ⟨rfl, point, (holds_readMatrix_iff length).2 fun a b q _ _ bound =>
        holds_iff.1 holds a b q bound⟩

/-! ### Octagons that are built -/

/-- The join of octagons that are built over real dimensions is the least octagon around them, and
dimensions are forgotten and removed exactly. -/
theorem join_and_projection_optimal (request : Request) :
    let IsBuilt := domain.Built fun c => c.IsValid ∧ c.HasProperRanges ∧ KeepsReals c
    (∀ a b c : Octagon, IsBuilt a → IsBuilt b → c.IsSquare → a.space = b.space →
      a.space = c.space → a.space.ints = 0 → (∀ x, a.HasPoint x → c.HasPoint x) →
      (∀ x, b.HasPoint x → c.HasPoint x) →
      Op.Returns request (domain.join a b) fun w =>
        (∀ x, a.HasPoint x ∨ b.HasPoint x → w.HasPoint x) ∧ ∀ x, w.HasPoint x → c.HasPoint x) ∧
    ∀ v : Octagon, IsBuilt v → v.space.ints = 0 →
      (∀ dims project, Op.Yields (domain.forget v dims project) (v.IsForgotten dims project) ∧
        ((∀ d ∈ dims, d < v.space.size) →
          Op.Returns request (domain.forget v dims project) (v.IsForgotten dims project))) ∧
      ∀ change, Op.Yields (domain.removeDimensions v change) (v.IsRestricted change) ∧
        (change.Removes v.space →
          Op.Returns request (domain.removeDimensions v change) (v.IsRestricted change)) := by
  intro IsBuilt
  have marked {v : Octagon} (built : IsBuilt v) : v.MarkedOn v.space v.space.IsReal :=
    keeps_markedOn.of_built built
  constructor
  · intro a b c built built' fits same same' real around around'
    have left := marked built
    have right := marked built'
    have formed' := right.isWellFormed (same ▸ real)
    have sound : Op.Ensures request False (a.join b) _ :=
      ensures_join left.regular.square right.regular.square same
    refine ((sound.and_yields (yields_join a b)).mono fun w both => ?_).returns id
    obtain ⟨⟨-, -, above⟩, -, rfl⟩ := both
    exact ⟨above, fun x => joining_least (left.isWellFormed real) formed' left.regular.square
      right.regular.square fits same same' real around around'⟩
  · intro v built real
    have square := (marked built).regular.square
    have formed := (marked built).isWellFormed real
    refine ⟨fun dims project => ⟨yields_isForgotten formed square real dims project,
      fun below => ?_⟩, fun change => ?_⟩
    · exact (ensures_isForgotten formed square real below project).returns id
    · have restricted := yields_isRestricted formed square real change
      refine ⟨restricted, fun fits => ?_⟩
      exact (((ensures_removeDimensions square fits).and_yields restricted).mono
        fun w both => both.2).returns id

def segment (lo hi : Rat) : Octagon :=
  ⟨⟨0, 1⟩, ⟨[[.fin 0, .fin (2 * hi)], [.fin (-(2 * lo)), .fin 0]]⟩, false, false, false⟩

theorem isSquare_segment (lo hi : Rat) : (segment lo hi).IsSquare :=
  ⟨rfl, by simp [segment, size]⟩

theorem hasPoint_segment {lo hi q : Rat} : (segment lo hi).HasPoint [q] ↔ lo ≤ q ∧ q ≤ hi := by
  constructor
  · intro inside
    have upper : fin (q - -q) ≤ .fin (2 * hi) := inside.holds 0 1
    have lower : fin (-q - q) ≤ .fin (-(2 * lo)) := inside.holds 1 0
    rw [fin_le_fin] at upper lower
    constructor <;> linarith
  · intro within
    have upper : fin (q - -q) ≤ .fin (2 * hi) := fin_le_fin.2 (by linarith)
    have lower : fin (-q - q) ≤ .fin (-(2 * lo)) := fin_le_fin.2 (by linarith)
    have same (p : Rat) : fin (p - p) ≤ .fin 0 := fin_le_fin.2 (by linarith)
    refine hasPoint_iff.2 ⟨rfl, isPoint_of_real rfl rfl,
      holds_of_square (isSquare_segment lo hi) fun i left j right => ?_⟩
    obtain rfl | rfl : i = 0 ∨ i = 1 := by simp [segment, size] at left; omega
    · obtain rfl | rfl : j = 0 ∨ j = 1 := by simp [segment, size] at right; omega
      · exact same q
      · exact upper
    · obtain rfl | rfl : j = 0 ∨ j = 1 := by simp [segment, size] at right; omega
      · exact lower
      · exact same (-q)

theorem built_segment (q : Rat) (found : ((ofIntervals ⟨0, 1⟩ [.ofExt (.fin q) (.fin q)]).run
    ⟨.ofBox, .standard, []⟩ .start).toOption.any (fun r => decide (r.1 = segment q q)) = true) :
    domain.Built (fun c => c.IsValid ∧ c.HasProperRanges ∧ KeepsReals c) (segment q q) := by
  have proper : ∀ i ∈ [Interval.ofExt (.fin q) (.fin q)], i.IsProper := by
    intro i mem
    obtain rfl := mem_singleton.1 mem
    exact ⟨ExtRat.noConfusion, ExtRat.noConfusion⟩
  exact built_of_any (c := .ofBox ⟨0, 1⟩ [.ofExt (.fin q) (.fin q)])
    ⟨trivial, proper, trivial⟩ (by simp [Construction.operands]) _ found

/-- The join of zero and one is the range between them. -/
theorem unit_range_and_shadow_exact :
    let v : Octagon := ⟨⟨0, 2⟩, ⟨[[.fin 0, .fin 2, .posInf, .fin 2],
      [.posInf, .fin 0, .posInf, .fin 0], [.fin 0, .fin 2, .fin 0, .fin 2],
      [.posInf, .posInf, .posInf, .fin 0]]⟩, true, false, false⟩
    domain.Built (fun c => c.IsValid ∧ c.HasProperRanges ∧ KeepsReals c) (segment 0 0) ∧
      domain.Built (fun c => c.IsValid ∧ c.HasProperRanges ∧ KeepsReals c) (segment 1 1) ∧
      domain.Built (fun c => c.IsValid ∧ c.HasProperRanges ∧ KeepsReals c) v ∧
      (Op.Returns ⟨.join, .standard, []⟩ (domain.join (segment 0 0) (segment 1 1)) fun w =>
        w.HasPoint [0] ∧ w.HasPoint [1] ∧ ∀ q, w.HasPoint [q] → 0 ≤ q ∧ q ≤ 1) ∧
      Op.Returns ⟨.join, .standard, []⟩ (domain.forget v [0] false) fun w =>
        w.HasPoint [5, 1] ∧ ∀ p q, w.HasPoint [p, q] → q ≤ 1 := by
  intro v
  have zero := built_segment 0 (by decide +kernel)
  have one := built_segment 1 (by decide +kernel)
  have empty : domain.Built (fun c => c.IsValid ∧ c.HasProperRanges ∧ KeepsReals c) (top ⟨0, 2⟩) :=
    Domain.built_of_any (c := .top ⟨0, 2⟩) ⟨trivial, trivial, trivial⟩
      (by simp [Construction.operands]) ⟨.join, .standard, []⟩ (by decide +kernel)
  have built : domain.Built (fun c => c.IsValid ∧ c.HasProperRanges ∧ KeepsReals c) v :=
    Domain.built_of_any (c := .meetLinear (top ⟨0, 2⟩)
        [⟨.atLeast, ⟨.rational 1, .sparse [(0, .rational (-1))]⟩, none⟩,
          ⟨.atLeast, ⟨.rational 0, .sparse [(0, .rational 1), (1, .rational (-1))]⟩, none⟩])
      ⟨trivial, trivial, trivial⟩ (by simpa [Construction.operands] using empty)
      ⟨.join, .standard, []⟩ (by decide +kernel)
  obtain ⟨joins, projections⟩ := join_and_projection_optimal ⟨.join, .standard, []⟩
  refine ⟨zero, one, built, ?_, ?_⟩
  · have around (q : Rat) (low : 0 ≤ q) (high : q ≤ 1) (x : List Rat)
        (inside : (segment q q).HasPoint x) : (segment 0 1).HasPoint x := by
      obtain ⟨p, rfl⟩ := List.length_eq_one_iff.1 inside.isPoint.length
      rw [hasPoint_segment] at inside ⊢
      exact ⟨low.trans inside.1, inside.2.trans high⟩
    refine (joins (segment 0 0) (segment 1 1) (segment 0 1) zero one (isSquare_segment 0 1) rfl rfl
      rfl (around 0 le_rfl zero_le_one) (around 1 zero_le_one le_rfl)).mono fun w both => ?_
    exact ⟨both.1 [0] (.inl (hasPoint_segment.2 ⟨le_rfl, le_rfl⟩)),
      both.1 [1] (.inr (hasPoint_segment.2 ⟨le_rfl, le_rfl⟩)),
      fun q inside => hasPoint_segment.1 (both.2 [q] inside)⟩
  · obtain ⟨forget, -⟩ := projections v built rfl
    refine ((forget [0] false).2 (by decide)).mono fun w exact => ⟨?_, fun p q inside => ?_⟩
    · have corner : v.HasPoint [1, 1] := hasPoint_iff.2 ⟨rfl, Space.isPoint_of_real rfl rfl,
        BoundMatrix.holds_of_square (n := 4) ⟨rfl, by decide⟩ (by decide +kernel)⟩
      refine (exact [5, 1]).2 ⟨⟨Space.isPoint_of_real rfl rfl, [1, 1], corner, fun d other => ?_⟩,
        fun project => Bool.noConfusion project⟩
      obtain ⟨e, rfl⟩ := Nat.exists_eq_succ_of_ne_zero (List.mem_singleton.not.1 other)
      rfl
    · obtain ⟨⟨-, x, inV, agree⟩, -⟩ := (exact [p, q]).1 inside
      have same : q = x.getD 1 0 := agree 1 (by decide)
      have upper : ExtRat.fin (nodeValue x 2 - nodeValue x 3) ≤ .fin 2 := inV.holds 2 3
      have value : nodeValue x 2 = q := (nodeValue_two_mul x 1).trans same.symm
      have opposite : nodeValue x 3 = -nodeValue x 2 := nodeValue_opposite x 2
      rw [ExtRat.fin_le_fin] at upper
      linarith

def beyond : Octagon :=
  ⟨⟨0, 1⟩, ⟨[[.fin 0, .posInf], [.negInf, .fin 0]]⟩, false, false, false⟩

theorem join_beyond (request : Request) :
    Returns request (domain.join beyond (segment 0 0)) fun w => w.HasPoint [1] := by
  have joined : joining beyond (segment 0 0) =
      ⟨⟨0, 1⟩, ⟨[[.fin 0, .posInf], [.fin 0, .fin 0]]⟩, true, false, false⟩ := by decide +kernel
  have gives : Gives (domain.join beyond (segment 0 0)) (joining beyond (segment 0 0)) :=
    gives_join rfl
  refine gives.returns ?_
  rw [joined]
  refine hasPoint_iff.2 ⟨rfl, isPoint_of_real rfl rfl, ?_⟩
  exact holds_of_square ⟨rfl, by decide⟩ (by decide +kernel)

def retyped : Octagon :=
  ⟨⟨0, 2⟩, ⟨[[.fin 0, .fin 0, .posInf, .fin (1 / 2)], [.posInf, .fin 0, .posInf, .fin 0],
    [.fin 0, .fin (1 / 2), .fin 0, .fin 1], [.posInf, .posInf, .posInf, .fin 0]]⟩,
    true, false, false⟩

theorem built_of_retyping (cs : List LinearConstraint)
    (found : ((do
      let closed ← domain.meetLinear (top ⟨1, 2⟩) cs
      let moved ← domain.permuteDimensions closed ⟨[1, 2, 0]⟩
      domain.removeDimensions moved ⟨[0], 1, 0⟩ : Op Octagon).run ⟨.meet, .standard, []⟩
        .start).toOption.any (fun r => decide (r.1 = o)) = true) :
    domain.Built (fun c => c.IsValid ∧ c.HasProperRanges) o := by
  have valid : (⟨[1, 2, 0]⟩ : Permutation).Valid 3 := ⟨rfl, by decide, by decide⟩
  have start : domain.Built (fun c => c.IsValid ∧ c.HasProperRanges) (top ⟨1, 2⟩) :=
    built_top ⟨trivial, trivial⟩
  refine Yields.of_any ((yields_built (c := .meetLinear (top ⟨1, 2⟩) cs)
    ⟨trivial, trivial⟩ (forall_mem_singleton.2 start)).bind fun closed built => ?_) found
  refine (yields_built (c := .permuteDimensions closed ⟨[1, 2, 0]⟩) ⟨valid, trivial⟩
    (forall_mem_singleton.2 built)).bind fun moved built => ?_
  exact yields_built (c := .removeDimensions moved ⟨[0], 1, 0⟩) ⟨trivial, trivial⟩
    (forall_mem_singleton.2 built)

def chain : List LinearConstraint :=
  [⟨.atLeast, ⟨.rational (1 / 2), .sparse [(2, .rational (-1))]⟩, none⟩,
    ⟨.atLeast, ⟨.rational 0, .sparse [(0, .rational (-1)), (2, .rational 1)]⟩, none⟩,
    ⟨.atLeast, ⟨.rational 0, .sparse [(0, .rational 1), (1, .rational (-1))]⟩, none⟩]

theorem built_retyped : domain.Built (fun c => c.IsValid ∧ c.HasProperRanges) retyped :=
  built_of_retyping chain (by decide +kernel)

theorem forget_retyped (request : Request) :
    Returns request (domain.forget retyped [0] false) fun w => w.HasPoint [0, 1 / 2] := by
  have square : retyped.IsSquare := ⟨rfl, by decide⟩
  have inside : ∀ d ∈ [0], d < retyped.space.size := by decide
  have sound : Ensures request False (domain.forget retyped [0] false) _ :=
    ensures_forget square inside false
  refine ((sound.and_yields (yields_forget retyped [0] false)).mono fun w both => ?_).returns id
  rcases both.2 with ⟨empty, -⟩ | ⟨-, -, rfl⟩
  · exact absurd empty (by decide +kernel)
  · exact hasPoint_iff.2 ⟨rfl, isPoint_of_real rfl rfl, holds_mapEntries square (by decide +kernel)⟩

/-- With an empty interval whose bounds do not cross, or with an integer dimension that becomes a
real one, a join is not least and forgetting a dimension is not exact. -/
theorem improper_or_retyped_not_optimal :
    (∃ a b : Octagon, domain.Built (fun c => c.IsValid ∧ KeepsReals c) a ∧
      domain.Built (fun c => c.IsValid ∧ KeepsReals c) b ∧ a.space = ⟨0, 1⟩ ∧ b.space = ⟨0, 1⟩ ∧
      (∀ x, a.HasPoint x → b.HasPoint x) ∧
      ∀ request, Op.Returns request (domain.join a b) fun w =>
        ∃ x, w.HasPoint x ∧ ¬ b.HasPoint x) ∧
    ∃ v : Octagon, domain.Built (fun c => c.IsValid ∧ c.HasProperRanges) v ∧ v.space = ⟨0, 2⟩ ∧
      ∀ request, Op.Returns request (domain.forget v [0] false) fun w =>
        ¬ v.IsForgotten [0] false w := by
  constructor
  · have first : domain.Built (fun c => c.IsValid ∧ KeepsReals c) beyond :=
      Domain.built_of_any (c := .ofBox ⟨0, 1⟩ [.ofExt .posInf .posInf]) ⟨trivial, trivial⟩
        (by simp [Construction.operands]) ⟨.join, .standard, []⟩ (by decide +kernel)
    have second : domain.Built (fun c => c.IsValid ∧ KeepsReals c) (segment 0 0) :=
      (built_segment 0 (by decide +kernel)).mono fun c admits => ⟨admits.1, admits.2.2⟩
    refine ⟨beyond, segment 0 0, first, second, rfl, rfl, fun x inside => ?_, fun request => ?_⟩
    · have never : ExtRat.fin _ ≤ .negInf := inside.holds 1 0
      exact (ExtRat.not_fin_le_negInf never).elim
    · refine (join_beyond request).mono fun w inside => ⟨[1], inside, fun zero => ?_⟩
      exact absurd (hasPoint_segment.1 zero).2 (by decide)
  · refine ⟨retyped, built_retyped, rfl, fun request => ?_⟩
    refine (forget_retyped request).mono fun w inside exact => ?_
    obtain ⟨⟨-, x, inV, agree⟩, -⟩ := (exact [0, 1 / 2]).1 inside
    have half : 1 / 2 = x.getD 1 0 := agree 1 (by decide)
    -- the second dimension is at most the first one, and that is at most zero
    have order : ExtRat.fin (nodeValue x 2 - nodeValue x 0) ≤ .fin 0 := inV.holds 2 0
    have upper : ExtRat.fin (nodeValue x 0 - nodeValue x 1) ≤ .fin 0 := inV.holds 0 1
    have opposite : nodeValue x 1 = -nodeValue x 0 := nodeValue_opposite x 0
    have value : nodeValue x 2 = 1 / 2 := (nodeValue_two_mul x 1).trans half.symm
    rw [ExtRat.fin_le_fin] at order upper
    linarith

end Octagon

end Enclosure
