import Enclosure.Proofs.Polyhedron.Looseness

/-!
# The join is the closed convex hull

A closed half-space that includes two polyhedra without strict rows includes everything that the
hull system writes as a sum of a multiple of the one and a multiple of the other, also where a
multiple is zero and only the directions of the rows are left.
-/

namespace Enclosure

namespace Polyhedron

variable {request : Request} {p a b : Polyhedron} {n : Nat} {x y : List Rat} {k t : Rat}
  {c : List Rat} {ps qs : List Polyhedron} {r : Row}

/-! ### Half-spaces -/

/-- The closed half-space of the vectors whose product with `c` is at most `k` includes the
polyhedron. -/
def Below (p : Polyhedron) (c : List Rat) (k : Rat) : Prop := ∀ x, p.Contains x → dot c x ≤ k

theorem IsLoose.holdsAt_iff (loose : p.IsLoose) (mem : r ∈ p.rows) :
    r.holdsAt x = true ↔ dot r.coeffs x ≤ r.bound := by
  rw [Row.holdsAt, loose r mem, if_neg Bool.false_ne_true, decide_eq_true_eq]

theorem IsLoose.below_row (loose : p.IsLoose) (mem : r ∈ p.rows) : p.Below r.coeffs r.bound :=
  fun _ inside => (loose.holdsAt_iff mem).1 (inside.2 r mem)

def combine (s : Rat) (x : List Rat) (t : Rat) (y : List Rat) : List Rat :=
  List.zipWith (fun u v => u * s + v * t) x y

theorem length_combine (same : x.length = y.length) (s t : Rat) :
    (combine s x t y).length = x.length := by
  rw [combine, List.length_zipWith, same, min_self]

theorem dot_combine (same : x.length = y.length) (s t : Rat) (c : List Rat) :
    dot c (combine s x t y) = dot c x * s + dot c y * t := by
  rw [dot_comm, combine, dot_zipWith same, dot_comm x, dot_comm y]

theorem contains_mean (inside : p.Contains x) (nonneg : 0 ≤ t) (length : y.length = p.space.size)
    (scaled : ∀ r ∈ p.rows, dot r.coeffs y ≤ t * r.bound) {s : Rat} (pos : 0 < s) :
    p.Contains (combine (s / (s + t)) x (1 / (s + t)) y) := by
  have same : x.length = y.length := inside.1.trans length.symm
  have total : 0 < s + t := by linarith
  refine ⟨(length_combine same _ _).trans inside.1, fun r mem => ?_⟩
  have old := inside.2 r mem
  have new := scaled r mem
  rw [Row.holdsAt_iff, Under] at old ⊢
  rw [dot_combine same, mul_div_assoc', mul_one_div, ← add_div]
  split at old
  · rename_i strict
    have product := mul_lt_mul_of_pos_left old pos
    rw [if_pos strict, div_lt_iff₀ total]
    linarith
  · rename_i loose
    have product := mul_le_mul_of_nonneg_left old pos.le
    rw [if_neg loose, div_le_iff₀ total]
    linarith

theorem dot_le_of_means (inside : p.Contains x) (below : p.Below c k) (nonneg : 0 ≤ t)
    (length : y.length = p.space.size)
    (means : ∀ s, 0 < s → p.Contains (combine (s / (s + t)) x (1 / (s + t)) y)) :
    dot c y ≤ t * k := by
  have same : x.length = y.length := inside.1.trans length.symm
  have near (s : Rat) (pos : 0 < s) : dot c y ≤ t * k + s * (k - dot c x) := by
    have total : 0 < s + t := by linarith
    have le := below _ (means s pos)
    rw [dot_combine same, mul_div_assoc', mul_one_div, ← add_div, div_le_iff₀ total] at le
    linarith
  by_contra more
  have room : 0 ≤ k - dot c x := sub_nonneg.2 (below x inside)
  have pos : 0 < (dot c y - t * k) / (k - dot c x + 1) := by
    apply div_pos <;> linarith
  have le := near _ pos
  rw [div_mul_eq_mul_div, ← sub_le_iff_le_add', le_div_iff₀ (by linarith)] at le
  linarith

theorem below_row (mem : r ∈ p.rows) : p.Below r.coeffs r.bound :=
  fun _ inside => (Row.holdsAt_iff.1 (inside.2 r mem)).le

theorem dot_le_of_mixes (same : a.space = b.space) {u v : List Rat} (inA : a.Contains u) (inB : b.Contains v) (mixes : a.Mixes b x)
    (belowA : a.Below c k) (belowB : b.Below c k) : dot c x ≤ k := by
  obtain ⟨length, y, t, size, first, second, nonneg, _⟩ := mixes
  have lengths : x.length = y.length := length.trans size.symm
  have left := dot_le_of_means inA belowA nonneg size fun _ => contains_mean inA nonneg size first
  have right : dot c (combine 1 x (-1) y) ≤ (1 - t) * k := by
    have size := (length_combine lengths 1 (-1)).trans (length.trans (congrArg Space.size same))
    refine dot_le_of_means inB belowB (by linarith) size fun _ =>
      contains_mean inB (by linarith) size fun r mem => ?_
    have row := second r mem
    rw [dot_combine lengths]
    linarith
  rw [dot_combine lengths] at right
  linarith

theorem ensures_join_hull (looseA : a.IsLoose) (looseB : b.IsLoose) (same : a.space = b.space) :
    Op.Ensures request request.Limited (a.join b) fun p => ¬ request.Limited →
      p.IsLoose ∧ ∀ c k, a.Below c k → b.Below c k → p.Below c k := by
  apply ((ensures_join_spec same).and_yields (yields_join_isLoose looseA looseB)).mono
  rintro p ⟨⟨-, -, joins⟩, loose⟩ free
  refine ⟨loose, fun c k belowA belowB x inside => ?_⟩
  rcases joins free with ⟨-, points⟩ | ⟨-, points⟩ | ⟨notAB, notBA, points⟩
  · exact belowB x ((points x).1 inside)
  · exact belowA x ((points x).1 inside)
  · -- neither operand is within the other, so both have vectors
    simp only [not_forall] at notAB notBA
    obtain ⟨u, inA, -⟩ := notAB
    obtain ⟨v, inB, -⟩ := notBA
    exact dot_le_of_mixes same inA inB ((points x).1 inside) belowA belowB

/-! ### Least upper bounds -/

theorem IsLoose.contains_of_below (loose : b.IsLoose) (same : a.space = b.space)
    (below : ∀ c k, b.Below c k → a.Below c k) (inside : a.Contains x) : b.Contains x := by
  refine ⟨inside.1.trans (same ▸ rfl), fun r mem => (loose.holdsAt_iff mem).2 ?_⟩
  exact below _ _ (loose.below_row mem) x inside

theorem returns_isLeq_iff (free : ¬ request.Limited) (same : a.space = b.space) :
    Op.Returns request (a.isLeq b) (· = true) ↔ ∀ x, a.Contains x → b.Contains x := by
  have answers := Op.Ensures.returns free (ensures_isLeq same)
  constructor
  · intro yes
    obtain ⟨answer, _, run, rfl⟩ := yes .start
    exact (answers.of_run run).1 rfl
  · intro within
    apply answers.mono
    intro answer h
    cases answer with
    | true => rfl
    | false =>
      obtain ⟨x, inA, notB⟩ := h.2 rfl free
      exact absurd (within x inA) notB

/-- The polyhedron has no strict rows, and is included in the same half-spaces as all of the
given ones together. -/
structure IsHull (ps : List Polyhedron) (s : Space) (p : Polyhedron) : Prop where
  loose : p.IsLoose
  space : p.space = s
  below_iff : ∀ c k, p.Below c k ↔ ∀ q ∈ ps, q.Below c k

theorem IsHull.contains {s : Space} (left : IsHull ps s a) (right : IsHull qs s b)
    (same : ∀ q, q ∈ ps ↔ q ∈ qs) (inside : a.Contains x) : b.Contains x := by
  apply right.loose.contains_of_below (left.space.trans right.space.symm) _ inside
  intro c k below
  rw [left.below_iff]
  intro q mem
  exact (right.below_iff c k).1 below q ((same q).1 mem)

theorem IsHull.ensures_join {s : Space} (free : ¬ request.Limited) (left : IsHull ps s a)
    (right : IsHull qs s b) :
    Op.Ensures request request.Limited (a.join b) (IsHull (ps ++ qs) s) := by
  have same : a.space = b.space := left.space.trans right.space.symm
  apply ((Polyhedron.ensures_join same).and (ensures_join_hull left.loose right.loose same)).mono
  intro p h
  obtain ⟨⟨space, includes⟩, hull⟩ := h
  obtain ⟨loose, least⟩ := hull free
  refine ⟨loose, space.trans left.space, fun c k => ?_⟩
  rw [List.forall_mem_append, ← left.below_iff, ← right.below_iff]
  constructor
  · intro below
    exact ⟨fun x inside => below x (includes x (.inl inside)),
      fun x inside => below x (includes x (.inr inside))⟩
  · intro both
    exact least c k both.1 both.2

/-! ### Orders and groupings -/

/-- In which order and grouping polyhedra are joined. -/
inductive JoinPlan
  | leaf (p : Polyhedron)
  | node (left right : JoinPlan)

namespace JoinPlan

def leaves : JoinPlan → List Polyhedron
  | leaf p => [p]
  | node left right => left.leaves ++ right.leaves

def run : JoinPlan → Op Polyhedron
  | leaf p => return p
  | node left right => do
    let a ← left.run
    let b ← right.run
    a.join b

def ofList (p : Polyhedron) (ps : List Polyhedron) : JoinPlan :=
  ps.foldl (fun t q => node t (leaf q)) (leaf p)

theorem run_foldl (t : JoinPlan) (ps : List Polyhedron) :
    (ps.foldl (fun t q => node t (leaf q)) t).run = t.run >>= fun p => ps.foldlM join p := by
  induction ps generalizing t with
  | nil => exact (bind_pure t.run).symm
  | cons q ps ih =>
    rw [List.foldl_cons, ih, run, bind_assoc]
    rfl

theorem run_ofList (p : Polyhedron) (ps : List Polyhedron) :
    (ofList p ps).run = ps.foldlM join p := by
  rw [ofList, run_foldl]
  exact pure_bind p _

theorem leaves_ofList (p : Polyhedron) (ps : List Polyhedron) : (ofList p ps).leaves = p :: ps := by
  have general (t : JoinPlan) :
      (ps.foldl (fun t q => node t (leaf q)) t).leaves = t.leaves ++ ps := by
    induction ps generalizing t with
    | nil => exact (List.append_nil _).symm
    | cons q ps ih =>
      rw [List.foldl_cons, ih, leaves, List.append_assoc]
      rfl
  exact general (leaf p)

theorem ensures_run {s : Space} (free : ¬ request.Limited) (t : JoinPlan)
    (formed : ∀ p ∈ t.leaves, p.IsLoose ∧ p.space = s) :
    Op.Ensures request request.Limited t.run (IsHull t.leaves s) := by
  induction t with
  | leaf p =>
    obtain ⟨loose, rfl⟩ := formed p (List.mem_singleton_self p)
    exact Op.ensures_pure ⟨loose, rfl, fun c k => by simp [leaves]⟩
  | node left right ihLeft ihRight =>
    rw [leaves, List.forall_mem_append] at formed
    apply (ihLeft formed.1).bind
    intro a hullA
    apply (ihRight formed.2).bind
    intro b hullB
    exact hullA.ensures_join free hullB

end JoinPlan

/-- Without a limit on sizes, the join of two polyhedra without strict rows is their closed convex
hull: it includes both and is in every closed half-space that includes both. -/
theorem join_is_closed_hull (request : Request) (unlimited : request.options.maxObjectSize = 0) :
    (∀ a b, a.IsLoose → b.IsLoose → a.space = b.space →
      Op.Returns request ((domain false).join a b) fun w =>
        w.IsLoose ∧ w.space = a.space ∧ (∀ x, a.Contains x ∨ b.Contains x → w.Contains x) ∧
        (∀ c k, (∀ x, a.Contains x → dot c x ≤ k) → (∀ x, b.Contains x → dot c x ≤ k) →
          ∀ x, w.Contains x → dot c x ≤ k) ∧
        Op.Returns request ((domain false).isLeq a w) (· = true) ∧
        Op.Returns request ((domain false).isLeq b w) (· = true) ∧
        ∀ c : Polyhedron, c.IsLoose → c.space = a.space →
          Op.Returns request ((domain false).isLeq a c) (· = true) →
          Op.Returns request ((domain false).isLeq b c) (· = true) →
          Op.Returns request ((domain false).isLeq w c) (· = true)) ∧
    (∀ s (t u : JoinPlan), (∀ p ∈ t.leaves, p.IsLoose ∧ p.space = s) → t.leaves.Perm u.leaves →
      Op.Returns request (do (domain false).isEq (← t.run) (← u.run)) (· = true)) ∧
    ∀ p ps, (JoinPlan.ofList p ps).leaves = p :: ps ∧
      (JoinPlan.ofList p ps).run = ps.foldlM (domain false).join p := by
  have free : ¬ request.Limited := by simp [Request.Limited, unlimited]
  refine ⟨fun a b looseA looseB same => ?_, fun s t u formed perm => ?_, fun p ps =>
    ⟨JoinPlan.leaves_ofList p ps, JoinPlan.run_ofList p ps⟩⟩
  · apply (((ensures_join same).and (ensures_join_hull looseA looseB same)).returns free).mono
    intro w h
    obtain ⟨⟨space, includes⟩, hull⟩ := h
    obtain ⟨loose, least⟩ := hull free
    refine ⟨loose, space, includes, least, ?_, ?_, fun c looseC same' belowA belowB => ?_⟩
    · exact (returns_isLeq_iff free space.symm).2 fun x inside => includes x (.inl inside)
    · exact (returns_isLeq_iff free (same.symm.trans space.symm)).2 fun x inside =>
        includes x (.inr inside)
    · have withinA := (returns_isLeq_iff free same'.symm).1 belowA
      have withinB := (returns_isLeq_iff free (same.symm.trans same'.symm)).1 belowB
      apply (returns_isLeq_iff free (space.trans same'.symm)).2
      intro x
      apply looseC.contains_of_below (space.trans same'.symm)
      intro c k below
      exact least c k (fun x inside => below x (withinA x inside))
        fun x inside => below x (withinB x inside)
  · have formed' : ∀ p ∈ u.leaves, p.IsLoose ∧ p.space = s := fun p mem =>
      formed p (perm.mem_iff.2 mem)
    apply Op.Ensures.returns free
    apply (t.ensures_run free formed).bind
    intro a hullA
    apply (u.ensures_run free formed').bind
    intro b hullB
    have spaces : a.space = b.space := hullA.space.trans hullB.space.symm
    have there := (returns_isLeq_iff free spaces).2 fun x =>
      hullA.contains hullB fun q => perm.mem_iff
    have back := (returns_isLeq_iff free spaces.symm).2 fun x =>
      hullB.contains hullA fun q => perm.mem_iff.symm
    apply there.ensures.bind
    intro answer yes
    rw [if_pos yes]
    exact back.ensures

/-- The half-line where `y = 0` and `0 ≤ x` and the point `(0, 1)` have a join that does not go
above `y = 1`, and joining them with a second point in another order makes no difference. -/
theorem halfline_and_points_joined :
    let ray : Polyhedron := ⟨⟨0, 2⟩, [⟨[-1, 0], 0, false⟩, ⟨[0, 1], 0, false⟩, ⟨[0, -1], 0, false⟩],
      by decide⟩
    let first : Polyhedron := ⟨⟨0, 2⟩, [⟨[1, 0], 0, false⟩, ⟨[-1, 0], 0, false⟩,
      ⟨[0, 1], 1, false⟩, ⟨[0, -1], -1, false⟩], by decide⟩
    let second : Polyhedron := ⟨⟨0, 2⟩, [⟨[1, 0], 1, false⟩, ⟨[-1, 0], -1, false⟩,
      ⟨[0, 1], 2, false⟩, ⟨[0, -1], -2, false⟩], by decide⟩
    let request : Request := ⟨.join, .standard, [.outOfSpace]⟩
    request.options.maxObjectSize = 0 ∧ ray.IsLoose ∧ first.IsLoose ∧ second.IsLoose ∧
      Op.Returns request ((domain false).join ray first) (fun w =>
        w.Contains [3, 0] ∧ w.Contains [0, 1] ∧ ∀ x, w.Contains x → dot [0, 1] x ≤ 1) ∧
      Op.Returns request (do
        (domain false).isEq (← [first, second].foldlM (domain false).join ray)
          (← JoinPlan.run (.node (.leaf second) (.node (.leaf ray) (.leaf first))))) (· = true) := by
  intro ray first second request
  have looseRay : ray.IsLoose := by decide
  have looseFirst : first.IsLoose := by decide
  have looseSecond : second.IsLoose := by decide
  obtain ⟨hull, plans, folds⟩ := join_is_closed_hull request rfl
  refine ⟨rfl, looseRay, looseFirst, looseSecond, ?_, ?_⟩
  · apply (hull ray first looseRay looseFirst rfl).mono
    intro w h
    obtain ⟨-, -, includes, least, -⟩ := h
    refine ⟨includes _ (.inl (by decide +kernel)), includes _ (.inr (by decide +kernel)), ?_⟩
    apply least
    · intro x inside
      have onAxis := looseRay.below_row (r := ⟨[0, 1], 0, false⟩) (by decide) x inside
      exact onAxis.trans zero_le_one
    · exact looseFirst.below_row (r := ⟨[0, 1], 1, false⟩) (by decide)
  · rw [← (folds ray [first, second]).2]
    apply plans ⟨0, 2⟩
    · rw [(folds ray [first, second]).1]
      decide
    · rw [(folds ray [first, second]).1]
      decide

end Polyhedron

end Enclosure
