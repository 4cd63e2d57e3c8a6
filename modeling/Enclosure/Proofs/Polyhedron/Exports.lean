import Enclosure.Proofs.Exports
import Enclosure.Proofs.Polyhedron.Exactness
import Enclosure.Proofs.Polyhedron.Looseness

/-!
# Exported polyhedra

The rows of a polyhedron are exported one by one.
-/

namespace Enclosure.Polyhedron

open LinearBound

variable {request request' query : Request} {strict : Bool} {p a b : Polyhedron} {s : Space}
  {bounds : List Interval} {cs : List LinearConstraint} {x : List Rat}

theorem returns_toLinear (free : ¬ request.Limited) :
    Op.Returns request p.toLinear fun cs => IsDescription p.space cs p.HasPoint ∧
      (p.IsLoose → ∀ c ∈ cs, c.comparison ≠ .above) := by
  have exported : Op.Ensures request request.Limited p.toLinear fun cs =>
      IsDescription p.space cs p.HasPoint ∧ (p.IsLoose → ∀ c ∈ cs, c.comparison ≠ .above) := by
    refine (ensures_isBottom p).bind fun empty h => ?_
    cases empty with
    | true =>
      refine Op.ensures_pure ⟨isDescription_unsatisfiable fun x inside => h.1 rfl x inside.2, ?_⟩
      simp [LinearConstraint.unsatisfiable, LinearConstraint.plain]
    | false =>
      refine Op.ensures_pure ⟨⟨?_, fun x point => ?_⟩, fun loose => ?_⟩
      · simp only [bounds, List.forall_mem_map]
        exact fun r mem => isPlain_toConstraint (p.wide r mem)
      · rw [HasPoint, Contains, and_iff_right point, and_iff_right point.length]
        simp only [bounds, List.forall_mem_map, holds_toConstraint]
        refine forall₂_congr fun r _ => ?_
        cases kind : r.strict <;> simp [holdsAt, BoundRelation.holds, Row.holdsAt, kind]
      · simp only [bounds, List.forall_mem_map]
        intro r mem
        simp [loose r mem, toConstraint, LinearConstraint.plain]
  exact exported.returns free

/-! ### Import -/

theorem settles_relaxAll (plain : ∀ c ∈ cs, c.IsPlain s.size)
    (kept : strict = true ∨ ∀ c ∈ cs, c.comparison ≠ .above) :
    Op.Settles request (relaxAll strict bounds s cs) fun _ => True := by
  induction cs with
  | nil => exact Op.settles_pure trivial
  | cons c cs ih =>
    obtain ⟨here, there⟩ := List.forall_mem_cons.1 plain
    have relaxed : Op.Settles request (relax c bounds s) _ :=
      settles_relax here.valid here.below here.regular
        (Comparison.isExpressible_of_plain here.comparison) (fun _ _ _ => trivial)
        fun _ _ _ _ => trivial
    refine relaxed.bind fun result loose => ?_
    cases result with
    | none => exact Op.settles_pure trivial
    | some bs =>
      have exact : (bs.any fun b => !strict && b.relation = .below) = false := by
        simp only [List.any_eq_false, Bool.and_eq_true, decide_eq_true_eq, not_and]
        intro b mem lost
        refine (loose bs rfl b mem).2 (kept.resolve_left ?_ c (by simp))
        simpa using lost
      simp only [mapM_rowsOf, exact]
      have later := ih there (kept.imp_right fun all d mem => all d (by simp [mem]))
      exact later.bind fun rest _ => Op.settles_pure trivial

theorem returns_meetLinear (plain : ∀ c ∈ cs, c.IsPlain p.space.size)
    (kept : strict = true ∨ ∀ c ∈ cs, c.comparison ≠ .above) :
    Op.Returns request (p.meetLinear strict cs) fun w => w.space = p.space ∧
      ∀ x, w.HasPoint x ↔ p.HasPoint x ∧ ∀ c ∈ cs, c.Holds x := by
  have settles : Op.Settles request (p.meetLinear strict cs) fun _ => True := by
    rw [meetLinear, if_pos (List.all_eq_true.2 fun c mem => (plain c mem).regular.isQuasilinear)]
    refine (settles_relaxAll plain kept).bind fun result _ => ?_
    cases result with
    | none => exact Op.settles_pure trivial
    | some rows => exact Op.settles_ofExcept fun _ _ => trivial
  exact (reports_meetLinear strict fun c mem =>
    ⟨(plain c mem).valid, (plain c mem).below, (plain c mem).regular⟩).returns_of_settles settles

theorem includes_of_contains (free : ¬ query.Limited) (same : a.space = b.space)
    (within : ∀ x, a.Contains x → b.Contains x) : (core strict).Includes query a b := by
  refine ((ensures_isLeq same).returns free).mono fun answer h => ?_
  cases answer with
  | true => rfl
  | false =>
    obtain ⟨x, inside, outside⟩ := h.2 rfl free
    exact absurd (within x inside) outside

theorem roundTrip (free : ¬ request.Limited) (free' : ¬ query.Limited)
    (kept : strict = true ∨ p.IsLoose) :
    (domain strict).RoundTrip request request' p fun w =>
      w.space = p.space ∧ (∀ x, w.HasPoint x ↔ p.HasPoint x) ∧
        (p.space.ints = 0 → (domain strict).Equates query w p) := by
  refine (returns_toLinear free).mono fun cs h => ?_
  obtain ⟨describes, loose⟩ := h
  refine (returns_meetLinear (p := top p.space) describes.plain
    (kept.imp_right loose)).mono fun w h => ?_
  obtain ⟨space, points⟩ := h
  have meets (x : List Rat) : w.HasPoint x ↔ p.space.IsPoint x ∧ ∀ c ∈ cs, c.Holds x := by
    rw [points, HasPoint, contains_top]
    exact and_congr_left fun _ => and_iff_left_of_imp fun point => point.length
  have same := describes.iff_of_meet (fun x inside => inside.1) meets
  refine ⟨space, same, fun real => ?_⟩
  have contains (x : List Rat) : w.Contains x ↔ p.Contains x := by
    rw [← hasPoint_iff_of_real real, ← same, hasPoint_iff_of_real (space ▸ real)]
  exact Domain.equates_of_includes
    (includes_of_contains free' space fun x => (contains x).1)
    (includes_of_contains free' space.symm fun x => (contains x).2)

end Enclosure.Polyhedron
