import Enclosure.Proofs.Constructions

/-!
# The laws of a lattice

The operations of a domain are expected to be those of a lattice, as far as the tests of the domain
can tell: a meet is found to be within its operands, a join is found to include them, and the order
of the operands and operands that are equal do not matter.
-/

namespace Enclosure

open Op

variable {V : Type}

/-! ### The laws -/

def DomainCore.Includes (D : DomainCore V) (query : Request) (a b : V) : Prop :=
  Returns query (D.isLeq a b) (· = true)

def Domain.Equates (D : Domain V) (query : Request) (a b : V) : Prop :=
  Returns query (D.isEq a b) (· = true)

/-- The laws of a lattice for two values over one space, as the tests of the domain answer. -/
structure Domain.LatticeLaws (D : Domain V) (request query : Request) (x y : V) : Prop where
  meet_bottom : Returns request (D.meet x (D.bottom (D.space x))) fun w =>
    Returns query (D.isBottom w) (· = true)
  join_top : Returns request (D.join x (D.top (D.space x))) fun w =>
    Returns query (D.isTop w) (· = true)
  leq_top : D.Includes query x (D.top (D.space x))
  bottom_leq : D.Includes query (D.bottom (D.space x)) x
  meet_comm : Returns request (D.meet x y) fun v =>
    Returns request (D.meet y x) fun w => D.Equates query v w
  join_comm : Returns request (D.join x y) fun v =>
    Returns request (D.join y x) fun w => D.Equates query v w
  join_self : Returns request (D.join x x) fun w => D.Equates query w x
  meet_self : Returns request (D.meet x x) fun w => D.Equates query w x
  leq_join : Returns request (D.join x y) fun w => D.Includes query x w ∧ D.Includes query y w
  meet_leq : Returns request (D.meet x y) fun w => D.Includes query w x ∧ D.Includes query w y
  leq_widening : Returns request (D.join x y) fun j =>
    Returns request (D.widening x j) fun w => D.Includes query x w ∧ D.Includes query j w

/-! ### Orders -/

structure DomainCore.IsMeet (D : DomainCore V) (formed : V → Prop) (le : V → V → Prop)
    (a b w : V) : Prop where
  wellFormed : formed w
  space : D.space w = D.space a
  left : le w a
  right : le w b
  greatest : ∀ u, formed u → D.space u = D.space a → le u a → le u b → le u w

structure DomainCore.IsJoin (D : DomainCore V) (formed : V → Prop) (le : V → V → Prop)
    (a b w : V) : Prop where
  wellFormed : formed w
  space : D.space w = D.space a
  left : le a w
  right : le b w
  absorbs : le b a → le w a

structure DomainCore.IsLattice (D : DomainCore V) (request query : Request) (formed : V → Prop)
    (le : V → V → Prop) : Prop where
  refl : ∀ v, formed v → le v v
  isLeq : ∀ a b, formed a → formed b → D.space a = D.space b → le a b → D.Includes query a b
  top : ∀ s, formed (D.top s) ∧ D.space (D.top s) = s
  le_top : ∀ v, formed v → le v (D.top (D.space v))
  isTop : ∀ v, formed v → le (D.top (D.space v)) v → Returns query (D.isTop v) (· = true)
  bottom : ∀ s, formed (D.bottom s) ∧ D.space (D.bottom s) = s
  bottom_le : ∀ v, formed v → le (D.bottom (D.space v)) v
  isBottom : ∀ v, formed v → le v (D.bottom (D.space v)) →
    Returns query (D.isBottom v) (· = true)
  meet : ∀ a b, formed a → formed b → D.space a = D.space b →
    Returns request (D.meet a b) (D.IsMeet formed le a b)
  join : ∀ a b, formed a → formed b → D.space a = D.space b →
    Returns request (D.join a b) (D.IsJoin formed le a b)
  join_comm : ∀ a b, formed a → formed b → D.space a = D.space b →
    Returns request (D.join a b) fun v => Returns request (D.join b a) fun w =>
      le v w ∧ le w v
  widening : ∀ a b, formed a → formed b → D.space a = D.space b →
    Returns request (D.widening a b) fun w => D.Includes query a w ∧ D.Includes query b w

section Laws

variable {D : Domain V} {request query : Request} {formed : V → Prop} {le : V → V → Prop}
  {a b x y : V}

theorem Domain.equates_of_includes (left : D.Includes query a b) (right : D.Includes query b a) :
    D.Equates query a b := by
  have both : Ensures query False (D.isEq a b) (· = true) := by
    refine left.ensures.bind fun answer yes => ?_
    rw [if_pos yes]
    exact right.ensures
  exact both.returns id

theorem DomainCore.join_comm_of_least {D : DomainCore V}
    (least : ∀ a b, formed a → formed b → D.space a = D.space b →
      Returns request (D.join a b) fun w => D.IsJoin formed le a b w ∧
        ∀ c, formed c → D.space c = D.space a → le a c → le b c → le w c)
    (ha : formed a) (hb : formed b) (same : D.space a = D.space b) :
    Returns request (D.join a b) fun v => Returns request (D.join b a) fun w =>
      le v w ∧ le w v := by
  refine (least a b ha hb same).mono fun v first => ?_
  refine (least b a hb ha same.symm).mono fun w second => ?_
  exact ⟨first.2 w second.1.wellFormed (second.1.space.trans same.symm) second.1.right
      second.1.left,
    second.2 v first.1.wellFormed (first.1.space.trans same) first.1.right first.1.left⟩

theorem Domain.latticeLaws_of_isLattice (lattice : D.IsLattice request query formed le)
    (hx : formed x) (hy : formed y) (same : D.space x = D.space y) :
    D.LatticeLaws request query x y := by
  obtain ⟨hTop, spaceTop⟩ := lattice.top (D.space x)
  obtain ⟨hBottom, spaceBottom⟩ := lattice.bottom (D.space x)
  -- values on both sides of each other are equal for the test, if not as values
  have equates {v w : V} hv hw same left right : D.Equates query v w :=
    equates_of_includes (lattice.isLeq v w hv hw same left)
      (lattice.isLeq w v hw hv same.symm right)
  exact {
    meet_bottom := (lattice.meet x _ hx hBottom spaceBottom.symm).mono fun w meet =>
      lattice.isBottom w meet.wellFormed (by
        rw [meet.space]
        exact meet.right)
    join_top := (lattice.join x _ hx hTop spaceTop.symm).mono fun w join =>
      lattice.isTop w join.wellFormed (by
        rw [join.space]
        exact join.right)
    leq_top := lattice.isLeq x _ hx hTop spaceTop.symm (lattice.le_top x hx)
    bottom_leq := lattice.isLeq _ x hBottom hx spaceBottom (lattice.bottom_le x hx)
    meet_comm := (lattice.meet x y hx hy same).mono fun v first =>
      (lattice.meet y x hy hx same.symm).mono fun w second => by
        have space : D.space v = D.space w :=
          first.space.trans (same.trans second.space.symm)
        refine equates first.wellFormed second.wellFormed space ?_ ?_
        · exact second.greatest v first.wellFormed (first.space.trans same) first.right first.left
        · exact first.greatest w second.wellFormed (second.space.trans same.symm) second.right
            second.left
    join_comm := ((lattice.join_comm x y hx hy same).and (lattice.join x y hx hy same)).mono
      fun v first => (first.1.and (lattice.join y x hy hx same.symm)).mono fun w second => by
        have space : D.space v = D.space w :=
          first.2.space.trans (same.trans second.2.space.symm)
        exact equates first.2.wellFormed second.2.wellFormed space second.1.1 second.1.2
    join_self := (lattice.join x x hx hx rfl).mono fun w join =>
      equates join.wellFormed hx join.space (join.absorbs (lattice.refl x hx)) join.left
    meet_self := (lattice.meet x x hx hx rfl).mono fun w meet => by
      have self := lattice.refl x hx
      exact equates meet.wellFormed hx meet.space meet.left (meet.greatest x hx rfl self self)
    leq_join := (lattice.join x y hx hy same).mono fun w join =>
      ⟨lattice.isLeq x w hx join.wellFormed join.space.symm join.left,
        lattice.isLeq y w hy join.wellFormed (same.symm.trans join.space.symm) join.right⟩
    meet_leq := (lattice.meet x y hx hy same).mono fun w meet =>
      ⟨lattice.isLeq w x meet.wellFormed hx meet.space meet.left,
        lattice.isLeq w y meet.wellFormed hy (meet.space.trans same) meet.right⟩
    leq_widening := (lattice.join x y hx hy same).mono fun j join =>
      lattice.widening x j hx join.wellFormed join.space.symm }

end Laws

end Enclosure
