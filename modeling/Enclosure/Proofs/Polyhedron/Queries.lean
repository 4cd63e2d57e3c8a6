import Enclosure.Domain.Polyhedron
import Enclosure.Proofs.Elimination

/-!
# Queries on polyhedra

A rational vector with one entry per dimension is in a polyhedron if it solves its rows.
-/

namespace Enclosure.Polyhedron

open Rows (Solves)

variable {request : Request} {p a b : Polyhedron} {s : Space} {x : List Rat}

def Contains (p : Polyhedron) (x : List Rat) : Prop := x.length = p.space.size ∧ Solves p.rows x

@[simp] theorem contains_top : (top s).Contains x ↔ x.length = s.size := by
  simp [Contains, top]

@[simp] theorem not_contains_bottom : ¬ (bottom s).Contains x := by
  rintro ⟨-, solves⟩
  exact Row.not_holdsAt_never _ x (Rows.solves_cons.1 solves).1

theorem ensures_requireSame {operation : DomainOperation} {risk : Prop} (same : a.space = b.space) :
    Op.Ensures request risk (requireSame operation a b) fun _ => True := by
  rw [requireSame, if_pos same]
  exact Op.ensures_pure trivial

theorem ensures_isBottom (p : Polyhedron) :
    Op.Ensures request request.Limited p.isBottom fun answer =>
      (answer = true → ∀ x, ¬ p.Contains x) ∧
        (answer = false → ¬ request.Limited → ∃ x, p.Contains x) :=
  (Rows.ensures_infeasible p.wide).mono fun _ h =>
    ⟨fun yes x inside => h.1 yes x inside.1 inside.2, h.2⟩

theorem ensures_includes (same : a.space = b.space) :
    Op.Ensures request request.Limited (b.includes a) fun answer =>
      (answer = true → ∀ x, a.Contains x → b.Contains x) ∧
        (answer = false → ¬ request.Limited → ∃ x, a.Contains x ∧ ¬ b.Contains x) := by
  refine (ensures_isBottom a).bind fun empty h => ?_
  cases empty with
  | true => exact Op.ensures_pure ⟨fun _ x inside => absurd inside (h.1 rfl x), by simp⟩
  | false =>
    have width : ∀ r ∈ b.rows, r.coeffs.length = a.space.size := same ▸ b.wide
    refine (Op.ensures_allM b.rows fun r mem =>
      (Rows.ensures_entails a.wide (width r mem)).mono fun answer implied =>
        ⟨implied.1, implied.2⟩).mono fun answer rows => ⟨fun yes x inside => ?_, fun no free => ?_⟩
    · exact ⟨inside.1.trans (same ▸ rfl), fun r mem => rows.1 yes r mem x inside.1 inside.2⟩
    · obtain ⟨r, mem, fails⟩ := rows.2 no
      obtain ⟨x, length, solves, out⟩ := fails free
      exact ⟨x, ⟨length, solves⟩, fun inside => out (inside.2 r mem)⟩

theorem ensures_isLeq (same : a.space = b.space) :
    Op.Ensures request request.Limited (a.isLeq b) fun answer =>
      (answer = true → ∀ x, a.Contains x → b.Contains x) ∧
        (answer = false → ¬ request.Limited → ∃ x, a.Contains x ∧ ¬ b.Contains x) :=
  (ensures_requireSame same).bind fun _ _ => ensures_includes same

theorem isTop_iff : p.isTop = true ↔ ∀ x, x.length = p.space.size → p.Contains x := by
  rw [isTop, List.all_eq_true]
  constructor
  · intro trivial x length
    refine ⟨length, fun r mem => ?_⟩
    have := trivial r mem
    simp only [Bool.and_eq_true, Bool.not_eq_true'] at this
    exact Row.holdsAt_of_isConstant this.1 this.2 x
  · intro all r mem
    have everywhere (x : List Rat) length : r.holdsAt x = true :=
      (all x length).2 r mem
    have constant : r.isConstant = true := by
      by_contra matters
      obtain ⟨x, length, fails⟩ := Row.exists_not_holdsAt (by simpa using matters)
      exact fails (everywhere x (length.trans (p.wide r mem)))
    have possible : r.isContradiction = false := by
      by_contra contra
      refine Row.not_holdsAt_of_isContradiction (by simpa using contra) _
        (everywhere (.replicate p.space.size 0) (by simp))
    simp [constant, possible]

/-- Without a limit on sizes, the tests decide whether there is no vector, whether all vectors
of one polyhedron are in another over the same space, and whether all vectors are in a
polyhedron. -/
theorem decides_emptiness_inclusion (strict : Bool) (request : Request)
    (unlimited : request.options.maxObjectSize = 0) :
    (∀ v, Op.Returns request ((domain strict).isBottom v) fun answer =>
      answer = true ↔ ¬ ∃ x, v.Contains x) ∧
    (∀ a b, a.space = b.space → Op.Returns request ((domain strict).isLeq a b) fun answer =>
      answer = true ↔ ∀ x, a.Contains x → b.Contains x) ∧
    ∀ v, Op.Returns request ((domain strict).isTop v) fun answer =>
      answer = true ↔ ∀ x, x.length = v.space.size → v.Contains x := by
  have free : ¬ request.Limited := by simp [Request.Limited, unlimited]
  refine ⟨fun v => ?_, fun a b same => ?_, fun v => ?_⟩
  · refine (ensures_isBottom v).returns free |>.mono fun answer h => ?_
    cases answer with
    | true => simpa using h.1 rfl
    | false => simpa using h.2 rfl free
  · refine (ensures_isLeq same).returns free |>.mono fun answer h => ?_
    cases answer with
    | true => simpa using h.1 rfl
    | false => simpa using h.2 rfl free
  · exact (Op.ensures_pure isTop_iff : Op.Ensures request False (pure v.isTop) _).returns id

/-- The closed half-line up to `1` is not within the open one. -/
theorem closed_halfline_not_leq_open :
    let closed : Polyhedron := ⟨⟨0, 1⟩, [⟨[1], 1, false⟩], by decide⟩
    let half : Polyhedron := ⟨⟨0, 1⟩, [⟨[1], 1, true⟩], by decide⟩
    let request : Request := ⟨.isLeq, .standard, [.outOfSpace]⟩
    request.options.maxObjectSize = 0 ∧ closed.space = half.space ∧
      Op.Returns request ((domain true).isLeq closed half) (· = false) := by
  intro closed half request
  refine ⟨rfl, rfl, ?_⟩
  obtain ⟨-, leq, -⟩ := decides_emptiness_inclusion true request rfl
  refine (leq closed half rfl).mono fun answer h => ?_
  by_contra yes
  have corner := h.1 (by simpa using yes) [1] ⟨rfl, by simp [closed, Row.holdsAt, dot]⟩
  have beyond := (Rows.solves_cons.1 corner.2).1
  simp [Row.holdsAt, dot] at beyond

end Enclosure.Polyhedron
