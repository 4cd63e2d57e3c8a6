import Enclosure.Proofs.Box.Lattice
import Enclosure.Proofs.Octagon.Lattice
import Enclosure.Proofs.Polyhedron.Hull

/-!
# The lattice laws of the domains

Boxes, octagons and polyhedra satisfy the laws of a lattice, as far as their own tests can tell.
-/

namespace Enclosure

namespace Polyhedron

open Rows

variable {request query : Request} {a b p : Polyhedron} {x : List Rat}

/-! ### Joins -/

theorem mixes_comm (same : a.space = b.space) (h : a.Mixes b x) : b.Mixes a x := by
  obtain ⟨length, y, t, size, first, second, _, _⟩ := h
  have lengths : x.length = y.length := length.trans size.symm
  refine ⟨same ▸ length, combine 1 x (-1) y, 1 - t, ?_, fun r mem => ?_, fun r mem => ?_,
    by linarith, by linarith⟩
  · rw [length_combine lengths, length, same]
  · have row := second r mem
    rw [dot_combine lengths]
    linarith
  · have row := first r mem
    rw [dot_combine lengths]
    linarith

theorem JoinsTo.comm {q : Polyhedron} (same : a.space = b.space) (h : JoinsTo a b p)
    (h' : JoinsTo b a q) (x : List Rat) : p.Contains x ↔ q.Contains x := by
  rcases h with ⟨ab, points⟩ | ⟨ba, points⟩ | ⟨notAB, notBA, points⟩
  · rcases h' with ⟨ba, points'⟩ | ⟨-, points'⟩ | ⟨-, notAB, -⟩
    · rw [points x, points' x]
      exact ⟨ba x, ab x⟩
    · rw [points x, points' x]
    · exact absurd ab notAB
  · rcases h' with ⟨-, points'⟩ | ⟨ab, points'⟩ | ⟨notBA, -⟩
    · rw [points x, points' x]
    · rw [points x, points' x]
      exact ⟨ab x, ba x⟩
    · exact absurd ba notBA
  · rcases h' with ⟨ba, -⟩ | ⟨ab, -⟩ | ⟨-, -, points'⟩
    · exact absurd ba notBA
    · exact absurd ab notAB
    · rw [points x, points' x]
      exact ⟨mixes_comm same, mixes_comm same.symm⟩

theorem isLattice (strict : Bool) (free : ¬ request.Limited) (free' : ¬ query.Limited) :
    (core strict).IsLattice request query (fun _ => True)
      (fun a b => ∀ x, a.Contains x → b.Contains x) where
  refl _ _ _ inside := inside
  isLeq _ _ _ _ same within := (returns_isLeq_iff free' same).2 within
  top s := ⟨trivial, rfl⟩
  le_top _ _ _ inside := contains_top.2 inside.1
  isTop v _ within :=
    Op.returns_pure (isTop_iff.2 fun x length => within x (contains_top.2 length))
  bottom s := ⟨trivial, rfl⟩
  bottom_le _ _ _ inside := absurd inside not_contains_bottom
  isBottom v _ within := by
    refine ((ensures_isBottom v).returns free').mono fun answer exact => ?_
    cases answer with
    | true => rfl
    | false =>
      obtain ⟨x, inside⟩ := exact.2 rfl free'
      exact absurd (within x inside) not_contains_bottom
  meet a b _ _ same := by
    have points : Op.Ensures request False (a.meet b) _ := ensures_meet same
    refine (points.returns id).mono fun w meet => ?_
    exact ⟨trivial, meet.1, fun x inside => ((meet.2 x).1 inside).1,
      fun x inside => ((meet.2 x).1 inside).2,
      fun u _ _ left right x inside => (meet.2 x).2 ⟨left x inside, right x inside⟩⟩
  join a b _ _ same := by
    refine (((ensures_join same).returns free).and (returns_join_points free same)).mono
      fun w both => ?_
    obtain ⟨⟨space, above⟩, points⟩ := both
    refine ⟨trivial, space, fun x inA => above x (.inl inA), fun x inB => above x (.inr inB),
      fun within x inside => ?_⟩
    rcases points with ⟨-, points⟩ | ⟨-, points⟩ | ⟨-, notBA, -⟩
    · exact within x ((points x).1 inside)
    · exact (points x).1 inside
    · exact absurd within notBA
  join_comm a b _ _ same := by
    refine (returns_join_points free same).mono fun v first => ?_
    refine (returns_join_points free same.symm).mono fun w second => ?_
    have points := first.comm same second
    exact ⟨fun x inside => (points x).1 inside, fun x inside => (points x).2 inside⟩
  widening a b _ _ same := by
    refine ((ensures_widening same).returns free).mono fun w above => ?_
    obtain ⟨space, above⟩ := above
    exact ⟨(returns_isLeq_iff free' space.symm).2 fun x inA => above x (.inl inA),
      (returns_isLeq_iff free' (same.symm.trans space.symm)).2 fun x inB => above x (.inr inB)⟩

end Polyhedron

/-! ### The domains -/

/-- The tests of boxes with outward rounding, of octagons and of polyhedra find the laws of a
lattice for any two values over one space, if sizes are not limited. -/
theorem lattice_laws_hold (request query : Request) (unlimited : request.options.maxObjectSize = 0)
    (unlimited' : query.options.maxObjectSize = 0) :
    (∀ k : Kind, k.IsOutward → ∀ x y : Box, (Box.domain k).Built Construction.IsValid x →
      (Box.domain k).Built Construction.IsValid y → x.space = y.space →
      (Box.domain k).LatticeLaws request query x y) ∧
    (∀ x y : Octagon, Octagon.domain.Built Construction.IsValid x →
      Octagon.domain.Built Construction.IsValid y → x.space = y.space →
      Octagon.domain.LatticeLaws request query x y) ∧
    ∀ (strict : Bool) (x y : Polyhedron), x.space = y.space →
      (Polyhedron.domain strict).LatticeLaws request query x y := by
  refine ⟨fun k outward x y hx hy same => ?_, fun x y hx hy same => ?_, fun strict x y same => ?_⟩
  · have kind {v : Box} (built : (Box.domain k).Built Construction.IsValid v) : v.HasKind k :=
      (Box.keeps_hasKind k _).of_built built
    exact Domain.latticeLaws_of_isLattice (Box.isLattice outward request query) (kind hx) (kind hy)
      same
  · have diagonal {v : Octagon} (built : Octagon.domain.Built Construction.IsValid v) :
        v.HasDiagonal := Octagon.keeps_hasDiagonal.of_built built
    exact Domain.latticeLaws_of_isLattice (Octagon.isLattice request query) (diagonal hx)
      (diagonal hy) same
  · have free : ¬ request.Limited := by simp [Request.Limited, unlimited]
    have free' : ¬ query.Limited := by simp [Request.Limited, unlimited']
    exact Domain.latticeLaws_of_isLattice (Polyhedron.isLattice strict free free') trivial trivial
      same

/-- Two points of an integer line as octagons, and two open half-lines that do not meet: the joins
are found not to depend on the order of the operands. -/
theorem points_and_open_rays_joined :
    let request : Request := ⟨.join, .standard, []⟩
    let point (q : Rat) : Octagon :=
      ⟨⟨1, 0⟩, ⟨[[.fin 0, .fin (2 * q)], [.fin (-(2 * q)), .fin 0]]⟩, false, false, false⟩
    let low : Polyhedron := ⟨⟨0, 1⟩, [⟨[1], 0, true⟩], by decide⟩
    let high : Polyhedron := ⟨⟨0, 1⟩, [⟨[-1], -1, true⟩], by decide⟩
    Octagon.domain.Built Construction.IsValid (point 0) ∧
      Octagon.domain.Built Construction.IsValid (point 3) ∧
      (Op.Returns request (Octagon.domain.join (point 0) (point 3)) fun v =>
        Op.Returns request (Octagon.domain.join (point 3) (point 0)) fun w =>
          Octagon.domain.Equates request v w) ∧
      Op.Returns request ((Polyhedron.domain true).join low high) fun v =>
        Op.Returns request ((Polyhedron.domain true).join high low) fun w =>
          (Polyhedron.domain true).Equates request v w := by
  intro request point low high
  have zero : Octagon.domain.Built Construction.IsValid (point 0) :=
    Domain.built_of_any (c := .ofBox ⟨1, 0⟩ [.ofExt (.fin 0) (.fin 0)]) trivial
      (by simp [Construction.operands]) request (by decide +kernel)
  have three : Octagon.domain.Built Construction.IsValid (point 3) :=
    Domain.built_of_any (c := .ofBox ⟨1, 0⟩ [.ofExt (.fin 3) (.fin 3)]) trivial
      (by simp [Construction.operands]) request (by decide +kernel)
  obtain ⟨-, octagons, polyhedra⟩ := lattice_laws_hold request request rfl rfl
  exact ⟨zero, three, (octagons _ _ zero three rfl).join_comm,
    (polyhedra true low high rfl).join_comm⟩

end Enclosure
