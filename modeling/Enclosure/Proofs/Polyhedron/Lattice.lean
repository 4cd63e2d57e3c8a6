import Enclosure.Proofs.Polyhedron.Queries

/-!
# Lattice operations on polyhedra

The meet has the vectors of both operands and nothing else, and dropping redundant rows keeps all
vectors.
-/

namespace Enclosure.Polyhedron

open Op Rows List

open Rows (Solves)

variable {request : Request} {risk : Prop} {p a b : Polyhedron} {s : Space} {n : Nat}
  {rows : List Row} {x : List Rat} {first second : List Row}

theorem ensures_make (wide : ∀ r ∈ rows, r.coeffs.length = s.size) :
    Ensures request risk (Op.ofExcept (make s rows)) fun p => p.space = s ∧ p.rows = rows := by
  refine ensures_ofExcept (a := ⟨s, rows, wide⟩) ?_ ⟨rfl, rfl⟩
  rw [make, dif_pos wide]

theorem ensures_meet (same : a.space = b.space) :
    Ensures request risk (a.meet b) fun p =>
      p.space = a.space ∧ ∀ x, p.Contains x ↔ a.Contains x ∧ b.Contains x := by
  have wide : ∀ r ∈ tidy (a.rows ++ b.rows), r.coeffs.length = a.space.size :=
    width_tidy fun r mem => (mem_append.1 mem).elim (a.wide r) (same ▸ b.wide r)
  refine (ensures_requireSame same).bind fun _ _ => (ensures_make wide).mono ?_
  rintro p ⟨space, rows⟩
  refine ⟨space, fun x => ?_⟩
  rw [Contains, space, rows, solves_tidy, solves_append, Contains, Contains, ← same]
  tauto

/-! ### Redundant rows -/

theorem ensures_dropRedundant? (before after : List Row)
    (wide : ∀ r ∈ before ++ after, r.coeffs.length = n) :
    Ensures request request.Limited (dropRedundant? before after) fun result =>
      (∀ fewer, result = some fewer →
        fewer.length + 1 = (before ++ after).length ∧ fewer ⊆ before ++ after ∧
          ∀ x, x.length = n → Solves fewer x → Solves (before ++ after) x) ∧
      (result = none → ¬ request.Limited → ∀ middle r rest, after = middle ++ r :: rest →
        ∃ x, x.length = n ∧ Solves (before ++ middle ++ rest) x ∧ ¬ r.holdsAt x = true) := by
  induction after generalizing before with
  | nil => exact ensures_pure (by simp)
  | cons r after ih =>
    have subset : before ++ after ⊆ before ++ r :: after := fun t mem => by
      simp only [mem_append] at mem ⊢
      tauto
    refine (ensures_entails (fun t mem => wide t (subset mem)) (wide r (by simp))).bind
      fun implied h => ?_
    cases implied with
    | true =>
      refine ensures_pure ⟨fun fewer same => ?_, fun absent => absurd absent (by simp)⟩
      rw [← Option.some.inj same]
      refine ⟨by simp only [length_append, length_cons]; omega, subset, fun x length solves => ?_⟩
      have implied := h.1 rfl x length solves
      rw [solves_append] at solves
      exact solves_append.2 ⟨solves.1, solves_cons.2 ⟨implied, solves.2⟩⟩
    | false =>
      refine (ih (before ++ [r]) (by simpa using wide)).mono ?_
      rintro _ ⟨dropped, needed⟩
      refine ⟨fun fewer same => by simpa using dropped fewer same, ?_⟩
      intro none free middle s rest split
      -- the row in question is the first one, or among those that were looked at later
      cases middle with
      | nil =>
        obtain ⟨rfl, rfl⟩ : r = s ∧ after = rest := by simpa using split
        simpa using h.2 rfl free
      | cons t middle =>
        obtain ⟨rfl, rfl⟩ : r = t ∧ after = middle ++ s :: rest := by simpa using split
        simpa using needed none free middle s rest rfl

theorem ensures_dropAllRedundant (fuel : Nat) (wide : ∀ r ∈ rows, r.coeffs.length = n)
    (enough : rows.length ≤ fuel) :
    Ensures request request.Limited (dropAllRedundant fuel rows) fun left =>
      left ⊆ rows ∧ (∀ x, x.length = n → Solves left x → Solves rows x) ∧
        (¬ request.Limited → ∀ before r after, left = before ++ r :: after →
          ∃ x, x.length = n ∧ Solves (before ++ after) x ∧ ¬ r.holdsAt x = true) := by
  induction fuel generalizing rows with
  | zero =>
    obtain rfl := length_eq_zero_iff.1 (Nat.le_zero.1 enough)
    refine ensures_pure ⟨fun _ mem => mem, fun _ _ solves => solves, ?_⟩
    intro _ before r after split
    simp at split
  | succ fuel ih =>
    refine (ensures_dropRedundant? [] rows wide).bind fun result h => ?_
    cases result with
    | none =>
      refine ensures_pure ⟨fun _ mem => mem, fun _ _ solves => solves, ?_⟩
      intro free before r after split
      simpa using h.2 rfl free before r after split
    | some fewer =>
      obtain ⟨count, subset, solves⟩ := h.1 fewer rfl
      rw [nil_append] at count subset solves
      refine (ih (fun r mem => wide r (subset mem)) (by omega)).mono fun left h => ?_
      exact ⟨fun r mem => subset (h.1 mem),
        fun x length inLeft => solves x length (h.2.1 x length inLeft), h.2.2⟩

structure IsMinimized (limited : Prop) (p q : Polyhedron) : Prop where
  space : q.space = p.space
  contains : ∀ x, q.Contains x ↔ p.Contains x
  rows : q = bottom p.space ∨ q.rows ⊆ Rows.tidy p.rows
  empty : ¬ limited → (∀ x, ¬ p.Contains x) → q = bottom p.space
  needed : ¬ limited → ∀ x, p.Contains x → ∀ before r after, q.rows = before ++ r :: after →
    ∃ x, x.length = p.space.size ∧ Solves (before ++ after) x ∧ ¬ r.holdsAt x = true

theorem ensures_isMinimized (p : Polyhedron) :
    Ensures request request.Limited p.minimize (IsMinimized request.Limited p) := by
  have wide := width_tidy p.wide
  refine (ensures_infeasible wide).bind fun empty h => ?_
  cases empty with
  | true =>
    have none (x : List Rat) : ¬ p.Contains x := fun inside =>
      h.1 rfl x inside.1 (solves_tidy.2 inside.2)
    exact ensures_pure ⟨rfl, fun x => iff_of_false not_contains_bottom (none x), .inl rfl,
      fun _ _ => rfl, fun _ x inside => absurd inside (none x)⟩
  | false =>
    refine (ensures_dropAllRedundant _ wide le_rfl).bind ?_
    rintro _ ⟨subset, solves, needed⟩
    refine (ensures_make fun r mem => wide r (subset mem)).mono ?_
    rintro q ⟨space, rows⟩
    refine ⟨space, fun x => ?_, .inr (rows ▸ subset), fun free none => ?_,
      fun free _ _ => rows ▸ needed free⟩
    · rw [Contains, space, rows]
      refine and_congr_right fun length => ⟨fun inLeft => ?_, fun inRows r mem => ?_⟩
      · exact solves_tidy.1 (solves x length inLeft)
      · exact solves_tidy.2 inRows r (subset mem)
    · obtain ⟨x, length, inside⟩ := h.2 rfl free
      exact absurd ⟨length, solves_tidy.1 inside⟩ (none x)

/-- Dropping redundant rows keeps the vectors, under any limit. -/
theorem minimized_irredundant (p : Polyhedron) (request : Request) :
    Op.Ensures request request.Limited p.minimize fun q =>
      q.space = p.space ∧ (∀ x, q.Contains x ↔ p.Contains x) ∧
      (request.options.maxObjectSize = 0 →
        (q.rows = [.never p.space.size] ↔ ∀ x, ¬ p.Contains x) ∧
        (q.rows = [.never p.space.size] ∨ ∀ before r after, q.rows = before ++ r :: after →
          ∃ x, x.length = p.space.size ∧ Solves (before ++ after) x ∧ ¬ r.holdsAt x = true)) := by
  refine (ensures_isMinimized p).mono fun q h => ⟨h.space, h.contains, fun unlimited => ?_⟩
  have free : ¬ request.Limited := by simp [Request.Limited, unlimited]
  by_cases none : ∀ x, ¬ p.Contains x
  · have rows : q.rows = [.never p.space.size] := by rw [h.empty free none, bottom]
    exact ⟨iff_of_true rows none, .inl rows⟩
  · obtain ⟨x, inside⟩ := not_forall_not.1 none
    refine ⟨iff_of_false (fun never => ?_) none, .inr (h.needed free x inside)⟩
    have solves := ((h.contains x).2 inside).2
    rw [never] at solves
    exact Row.not_holdsAt_never _ x (Rows.solves_cons.1 solves).1

/-! ### Join -/

theorem solves_hullSystem {y : List Rat} {t : Rat} (wideA : ∀ r ∈ first, r.coeffs.length = n)
    (wideB : ∀ r ∈ second, r.coeffs.length = n) (hx : x.length = n) (hy : y.length = n) :
    Solves (hullSystem n first second) (x ++ y ++ [t]) ↔
      (∀ r ∈ first, dot r.coeffs y ≤ t * r.bound) ∧
        (∀ r ∈ second, dot r.coeffs x - dot r.coeffs y ≤ (1 - t) * r.bound) ∧ 0 ≤ t ∧ t ≤ 1 := by
  -- each row has a part for `x`, one for `y`, and the coefficient of `t`
  have weight (v : Rat) : dot (.replicate (2 * n) 0 ++ [v]) (x ++ (y ++ [t])) = v * t := by
    rw [← append_assoc, dot_append (by simp [hx, hy, two_mul]), dot_replicate_zero, dot_cons,
      dot_nil, zero_add, add_zero]
  have firstRow (r : Row) (mem : r ∈ first) :
      dot (.replicate n 0 ++ r.coeffs ++ [-r.bound]) (x ++ y ++ [t]) =
        dot r.coeffs y - t * r.bound := by
    rw [dot_append (by simp [hx, hy, wideA r mem]), dot_append (by simp [hx]),
      dot_replicate_zero, dot_cons, dot_nil]
    ring
  have secondRow (r : Row) (mem : r ∈ second) :
      dot (r.coeffs ++ r.coeffs.map (- ·) ++ [r.bound]) (x ++ y ++ [t]) =
        dot r.coeffs x - dot r.coeffs y + t * r.bound := by
    rw [dot_append (by simp [hx, hy, wideB r mem]), dot_append (by simp [hx, wideB r mem]),
      dot_map_neg, dot_cons, dot_nil]
    ring
  rw [hullSystem, solves_append, solves_append, and_assoc]
  refine and_congr ?_ (and_congr ?_ ?_)
  · simp only [Solves, forall_mem_map, Row.holdsAt_iff, Under]
    refine forall₂_congr fun r mem => ?_
    rw [firstRow r mem]
    simp
  · simp only [Solves, forall_mem_map, Row.holdsAt_iff, Under]
    refine forall₂_congr fun r mem => ?_
    rw [secondRow r mem, if_neg Bool.false_ne_true, ← sub_nonneg, ← sub_nonneg (b := _ - _)]
    ring_nf
  · simp [Row.holdsAt_iff, Under, weight]

theorem width_hullSystem (wideA : ∀ r ∈ first, r.coeffs.length = n)
    (wideB : ∀ r ∈ second, r.coeffs.length = n) :
    ∀ r ∈ hullSystem n first second, r.coeffs.length = n + (n + 1) := by
  intro r mem
  simp only [hullSystem, mem_append, mem_map, mem_cons, not_mem_nil, or_false] at mem
  rcases mem with (⟨t, inFirst, rfl⟩ | ⟨t, inSecond, rfl⟩) | rfl | rfl
  · simp [wideA t inFirst]
  · simp [wideB t inSecond]
  · simp [two_mul, add_assoc]
  · simp [two_mul, add_assoc]

def Mixes (a b : Polyhedron) (x : List Rat) : Prop :=
  x.length = a.space.size ∧ ∃ y t, y.length = a.space.size ∧
    (∀ r ∈ a.rows, dot r.coeffs y ≤ t * r.bound) ∧
    (∀ r ∈ b.rows, dot r.coeffs x - dot r.coeffs y ≤ (1 - t) * r.bound) ∧ 0 ≤ t ∧ t ≤ 1

theorem mixes_of_contains (same : a.space = b.space) (inside : a.Contains x ∨ b.Contains x) :
    a.Mixes b x := by
  rcases inside with ⟨length, solves⟩ | ⟨length, solves⟩
  · refine ⟨length, x, 1, length, fun r mem => ?_, by simp, zero_le_one, le_rfl⟩
    rw [one_mul]
    exact (Row.holdsAt_iff.1 (solves r mem)).le
  · have zero (cs : List Rat) : dot cs (.replicate a.space.size 0) = 0 := by
      rw [dot_comm, dot_replicate_zero]
    refine ⟨same ▸ length, .replicate a.space.size 0, 0, by simp, fun r _ => by simp [zero],
      fun r mem => ?_, le_rfl, zero_le_one⟩
    rw [zero, sub_zero, sub_zero, one_mul]
    exact (Row.holdsAt_iff.1 (solves r mem)).le

theorem exists_hull_parts {z : List Rat} (length : z.length = n + (n + 1))
    (kept : keptOf (replicate n true ++ replicate (n + 1) false) z = x) :
    ∃ y t, y.length = n ∧ z = x ++ y ++ [t] := by
  have first : (z.take n).length = (replicate n true).length := by
    rw [length_take, length_replicate]
    omega
  have nonempty : z.drop n ≠ [] := by
    rw [← length_pos_iff, length_drop]
    omega
  rw [← take_append_drop n z, keptOf_append first,
    keptOf_eq_self (by simp) first, keptOf_replicate_false, append_nil] at kept
  refine ⟨(z.drop n).dropLast, (z.drop n).getLast nonempty, ?_, ?_⟩
  · rw [length_dropLast, length_drop]
    omega
  · rw [append_assoc, dropLast_append_getLast, ← kept, take_append_drop]

theorem solves_projected_iff {left : List Row} (same : a.space = b.space)
    (projection : IsProjection (hullSystem a.space.size a.rows b.rows)
      (replicate a.space.size true ++ replicate (a.space.size + 1) false) left)
    (length : x.length = a.space.size) : Solves left x ↔
      ∃ y t, y.length = a.space.size ∧ (∀ r ∈ a.rows, dot r.coeffs y ≤ t * r.bound) ∧
        (∀ r ∈ b.rows, dot r.coeffs x - dot r.coeffs y ≤ (1 - t) * r.bound) ∧ 0 ≤ t ∧ t ≤ 1 := by
  have wideB : ∀ r ∈ b.rows, r.coeffs.length = a.space.size := same ▸ b.wide
  rw [projection.solves_iff x (by simp [count_replicate, length])]
  constructor
  · intro solution
    obtain ⟨z, width, solves, kept⟩ := solution
    obtain ⟨y, t, size, rfl⟩ := exists_hull_parts (by simpa using width) kept
    exact ⟨y, t, size, (solves_hullSystem a.wide wideB length size).1 solves⟩
  · intro parts
    obtain ⟨y, t, size, mixes⟩ := parts
    -- the columns of the part and of its weight are those that were eliminated
    refine ⟨x ++ y ++ [t], by simp [length, size],
      (solves_hullSystem a.wide wideB length size).2 mixes, ?_⟩
    rw [append_assoc, keptOf_append (by simpa using length),
      keptOf_eq_self (by simp) (by simpa using length), keptOf_replicate_false,
      append_nil]

def JoinsTo (a b p : Polyhedron) : Prop :=
  (∀ x, a.Contains x → b.Contains x) ∧ (∀ x, p.Contains x ↔ b.Contains x) ∨
    (∀ x, b.Contains x → a.Contains x) ∧ (∀ x, p.Contains x ↔ a.Contains x) ∨
      ¬ (∀ x, a.Contains x → b.Contains x) ∧ ¬ (∀ x, b.Contains x → a.Contains x) ∧
        ∀ x, p.Contains x ↔ a.Mixes b x

theorem ensures_join_spec (same : a.space = b.space) :
    Ensures request request.Limited (a.join b) fun p =>
      p.space = a.space ∧ (∀ x, a.Contains x ∨ b.Contains x → p.Contains x) ∧
        (¬ request.Limited → JoinsTo a b p) := by
  refine (ensures_requireSame same).bind fun _ _ => (ensures_isLeq same).bind fun leq h => ?_
  cases leq with
  | true =>
    exact ensures_pure ⟨same.symm, fun x inside => inside.elim (h.1 rfl x) id,
      fun _ => .inl ⟨h.1 rfl, fun x => .rfl⟩⟩
  | false =>
    refine (ensures_isLeq same.symm).bind fun geq h' => ?_
    cases geq with
    | true =>
      exact ensures_pure ⟨rfl, fun x inside => inside.elim id (h'.1 rfl x),
        fun _ => .inr (.inl ⟨h'.1 rfl, fun x => .rfl⟩)⟩
    | false =>
      refine .markInexactBind ?_
      have wideB : ∀ r ∈ b.rows, r.coeffs.length = a.space.size := same ▸ b.wide
      refine (ensures_project (by simpa using width_hullSystem a.wide wideB)).bind
        fun result projected => ?_
      cases result with
      | none =>
        -- the hull is too large, and everything is above both
        refine ensures_pure ⟨rfl, fun x inside => contains_top.2 ?_,
          fun free => absurd (projected.1 rfl) free⟩
        exact inside.elim (·.1) fun inB => inB.1.trans (same ▸ rfl)
      | some left =>
        have projection := projected.2 left rfl
        have narrow : ∀ r ∈ left, r.coeffs.length = a.space.size := by
          simpa [count_replicate] using projection.width
        refine (ensures_make narrow).bind fun q hq => (ensures_isMinimized q).mono
          fun p minimized => ?_
        have points (x : List Rat) : p.Contains x ↔ a.Mixes b x := by
          rw [minimized.contains x, Contains, hq.1, hq.2]
          exact and_congr_right (solves_projected_iff same projection)
        refine ⟨minimized.space.trans hq.1,
          fun x inside => (points x).2 (mixes_of_contains same inside), fun free => ?_⟩
        -- a vector of each operand shows that it is not within the other one
        obtain ⟨u, inA, outB⟩ := h.2 rfl free
        obtain ⟨v, inB, outA⟩ := h'.2 rfl free
        exact .inr (.inr ⟨fun le => outB (le u inA), fun le => outA (le v inB), points⟩)

theorem ensures_join (same : a.space = b.space) :
    Ensures request request.Limited (a.join b) fun p =>
      p.space = a.space ∧ ∀ x, a.Contains x ∨ b.Contains x → p.Contains x :=
  (ensures_join_spec same).mono fun _ h => ⟨h.1, h.2.1⟩

theorem returns_join_points (free : ¬ request.Limited) (same : a.space = b.space) :
    Returns request (a.join b) (JoinsTo a b) :=
  ((ensures_join_spec same).returns free).mono fun _ h => h.2.2 free

/-! ### Widening -/

def Replaces (n : Nat) (rows : List Row) (c : Row) : Prop :=
  ∃ ri ∈ rows.zipIdx, ∀ x, x.length = n → Solves (rows.set ri.2 c) x → ri.1.holdsAt x = true

structure IsKept (n : Nat) (first second : List Row) (r : Row) : Prop where
  width : r.coeffs.length = n
  onFirst : ∀ x, x.length = n → Solves first x → r.holdsAt x = true
  onSecond : ∀ x, x.length = n → Solves second x → r.holdsAt x = true
  source : r ∈ first ∨ r ∈ second ∧ Replaces n first r

private theorem ensures_keepIfStable {first second kept : List Row} {c : Row}
    (wide : ∀ r ∈ first, r.coeffs.length = n) (width : c.coeffs.length = n) (mem : c ∈ second)
    (old : ∀ r ∈ kept, IsKept n first second r) :
    Ensures request request.Limited (keepIfStable first kept c) fun rows =>
      ∀ r ∈ rows, IsKept n first second r := by
  unfold keepIfStable
  split
  · exact ensures_pure old
  · refine (ensures_entails wide width).bind fun implied h => ?_
    cases implied with
    | false => exact ensures_pure old
    | true =>
      have replaces : Ensures request request.Limited (replacesSome first c) fun answer =>
          answer = true → Replaces n first c := by
        refine ensures_exists_anyM first.zipIdx fun ri inFirst => ?_
        have found := mem_zipIdx_iff_getElem?.1 inFirst
        refine (ensures_entails (fun r changed => ?_) ?_).mono fun _ h => h.1
        · rcases mem_or_eq_of_mem_set changed with old | rfl
          · exact wide r old
          · exact width
        · exact wide _ (mem_of_getElem? found)
      refine replaces.bind fun answer place => ?_
      cases answer with
      | false => exact ensures_pure old
      | true =>
        have new : IsKept n first second c :=
          ⟨width, h.1 rfl, fun x _ solves => solves c mem, .inr ⟨mem, place rfl⟩⟩
        exact ensures_pure (forall_mem_append.2 ⟨old, forall_mem_singleton.2 new⟩)

inductive WidensTo (limited : Prop) (a b w : Polyhedron) : Prop
  | left (empty : ∀ x, ¬ a.Contains x) (same : w = b)
  | right (empty : ∀ x, ¬ b.Contains x) (same : w = a)
  | kept (full : ¬ limited → (∃ x, a.Contains x) ∧ ∃ x, b.Contains x) (first second : Polyhedron)
      (minimal : IsMinimized limited a first) (minimal' : IsMinimized limited b second)
      (all : List Row) (rows : w.rows = Rows.tidy all)
      (kept : ∀ r ∈ all, IsKept a.space.size first.rows second.rows r)

theorem ensures_widensTo (same : a.space = b.space) :
    Ensures request request.Limited (a.widening b) fun w =>
      w.space = a.space ∧ WidensTo request.Limited a b w := by
  refine (ensures_requireSame same).bind fun _ _ => (ensures_isBottom a).bind fun empty h => ?_
  cases empty with
  | true => exact ensures_pure ⟨same.symm, .left (h.1 rfl) rfl⟩
  | false =>
    refine (ensures_isBottom b).bind fun empty h' => ?_
    cases empty with
    | true => exact ensures_pure ⟨rfl, .right (h'.1 rfl) rfl⟩
    | false =>
      refine (ensures_isMinimized a).bind fun first minimal => ?_
      refine (ensures_isMinimized b).bind fun second minimal' => ?_
      have wideFirst : ∀ r ∈ first.rows, r.coeffs.length = a.space.size :=
        minimal.space ▸ first.wide
      have wideSecond : ∀ r ∈ second.rows, r.coeffs.length = a.space.size :=
        same ▸ minimal'.space ▸ second.wide
      refine (ensures_filterM first.rows fun r mem =>
        (ensures_entails wideSecond (wideFirst r mem)).mono fun _ h => h.1).bind
          fun old common => ?_
      have start : ∀ r ∈ old, IsKept a.space.size first.rows second.rows r := by
        intro r mem
        obtain ⟨inFirst, onSecond⟩ := common r mem
        exact ⟨wideFirst r inFirst, fun x _ solves => solves r inFirst, onSecond, .inl inFirst⟩
      refine (ensures_foldlM second.rows old start fun rows r mem kept =>
        ensures_keepIfStable wideFirst (wideSecond r mem) mem kept).bind fun all kept => ?_
      refine (ensures_make (width_tidy fun r mem => (kept r mem).width)).mono ?_
      rintro w ⟨space, rows⟩
      exact ⟨space, .kept (fun free => ⟨h.2 rfl free, h'.2 rfl free⟩) first second minimal minimal'
        all rows kept⟩

theorem ensures_widening (same : a.space = b.space) :
    Ensures request request.Limited (a.widening b) fun p =>
      p.space = a.space ∧ ∀ x, a.Contains x ∨ b.Contains x → p.Contains x := by
  refine (ensures_widensTo same).mono ?_
  rintro w ⟨space, widens⟩
  refine ⟨space, fun x inside => ?_⟩
  cases widens with
  | left empty result => exact result ▸ inside.resolve_left (empty x)
  | right empty result => exact result ▸ inside.resolve_right (empty x)
  | kept _ first second minimal minimal' all rows kept =>
    have length : x.length = a.space.size :=
      inside.elim (·.1) fun inB => inB.1.trans (same ▸ rfl)
    refine ⟨length.trans (space ▸ rfl), rows ▸ solves_tidy.2 fun r mem => ?_⟩
    rcases inside with inA | inB
    · exact (kept r mem).onFirst x length ((minimal.contains x).2 inA).2
    · exact (kept r mem).onSecond x length ((minimal'.contains x).2 inB).2

end Enclosure.Polyhedron
