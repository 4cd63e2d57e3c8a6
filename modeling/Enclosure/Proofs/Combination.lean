import Enclosure.Proofs.Box.Lattice
import Enclosure.Proofs.HonestReports
import Enclosure.Proofs.Managers
import Enclosure.Proofs.Octagon.Soundness

/-!
# Values over different environments

Two values are moved to the least environment that has the variables of both before they are
combined.
-/

namespace Enclosure

open Environment SpaceChange Managed AbstractValue

variable {V : Type} {request : Request}

/-! ### Insertion of dimensions -/

def DomainCore.InsertsExactly (D : DomainCore V) (formed : V → Prop)
    (contains : V → List Rat → Prop) (request : Request) : Prop :=
  ∀ v c, formed v → c.Inserts (D.space v) →
    Op.Returns request (D.addDimensions v c false) fun w =>
      formed w ∧ D.space w = (D.space v).grow c ∧
        ∀ y, y.length = ((D.space v).grow c).size →
          (contains w y ↔ contains v (readAt (c.shifts (D.space v).size) y))

/-- What a domain says of two values over one space. -/
structure Domain.Combines (D : Domain V) (formed : V → Prop) (contains γ : V → List Rat → Prop)
    (request : Request) : Prop where
  points : ∀ v x, γ v x ↔ (D.space v).IsPoint x ∧ contains v x
  inserts : D.InsertsExactly formed contains request
  meet : ∀ a b, formed a → formed b → D.space a = D.space b →
    Op.Returns request (D.meet a b) fun w =>
      formed w ∧ D.space w = D.space a ∧ ∀ x, γ w x ↔ γ a x ∧ γ b x
  join : ∀ a b, formed a → formed b → D.space a = D.space b →
    Op.Returns request (D.join a b) fun w =>
      formed w ∧ D.space w = D.space a ∧ ∀ x, γ a x ∨ γ b x → γ w x
  widening : ∀ a b, formed a → formed b → D.space a = D.space b →
    Op.Returns request (D.widening a b) fun w =>
      formed w ∧ D.space w = D.space a ∧ ∀ x, γ a x ∨ γ b x → γ w x
  isLeq : ∀ a b, formed a → formed b → D.space a = D.space b →
    Op.Returns request (D.isLeq a b) fun answer => answer = true → ∀ x, γ a x → γ b x

/-- The call fails if some variable is integer in one environment and real in the other, and names
such a variable. -/
structure Managed.FailsOnClash {α : Type} (m : Manager) (a b : Environment) (call : Managed α)
    (post : α → Prop) : Prop where
  fails : ∀ v, a.Clash b v → Fails m call fun failure =>
    ∃ w, a.Clash b w ∧ failure = .incompatibleEnvironment w
  returns : (∀ v, ¬ a.Clash b v) → Returns m call post

theorem Managed.FailsOnClash.map {α β : Type} {m : Manager} {a b : Environment} {call : Managed α}
    {post : α → Prop} {post' : β → Prop} {f : α → β} (h : FailsOnClash m a b call post)
    (imp : ∀ r, post r → post' (f r)) :
    FailsOnClash m a b (call >>= fun r => pure (f r)) post' where
  fails v clash := (h.fails v clash).bind
  returns none := (h.returns none).bind fun r _ holds => returns_pure (imp r holds)

/-! ### Values and valuations -/

namespace AbstractValue

/-- The value is over the space that its environment names. -/
structure IsFormed (D : Domain V) (formed : V → Prop) (a : AbstractValue V) : Prop where
  env : a.env.IsValid
  value : formed a.value
  space : D.space a.value = a.env.space

/-- The valuation gives the variables a point of the value. -/
def Has (γ : V → List Rat → Prop) (a : AbstractValue V) (ρ : String → Rat) : Prop :=
  γ a.value (a.env.point ρ)

structure MovedTo (D : Domain V) (formed : V → Prop) (contains : V → List Rat → Prop)
    (a : AbstractValue V) (u : Environment) (x : V) : Prop where
  value : formed x
  space : D.space x = u.space
  contains_iff : ∀ ρ, contains x (u.point ρ) ↔ contains a.value (a.env.point ρ)

variable {D : Domain V} {formed : V → Prop} {contains γ : V → List Rat → Prop} {request : Request}
  {a b : AbstractValue V} {u : Environment} {m : Manager} {α : Type} {ρ : String → Rat} {x y : V}

theorem returns_embed (inserts : D.InsertsExactly formed contains request)
    (ha : a.IsFormed D formed) (hu : u.IsValid) (within : a.env.Within u) :
    Op.Returns request (embed D a.value (proper (a.env.embedding? u)))
      (a.MovedTo D formed contains u) := by
  rcases embed_cases D a.value ha.env hu within with ⟨rfl, run⟩ | ⟨c, embeds, run⟩
  · exact run ▸ Op.returns_pure ⟨ha.value, ha.space, fun _ => .rfl⟩
  · rw [run]
    refine (inserts a.value c ha.value (ha.space ▸ embeds.fits)).mono fun w grown => ?_
    obtain ⟨hw, spaceW, points⟩ := grown
    rw [ha.space, embeds.space] at spaceW points
    refine ⟨hw, spaceW, fun ρ => (points (u.point ρ) length_point).trans ?_⟩
    exact iff_of_eq (congrArg (contains a.value) (readAt_shifts_point embeds.moved))

theorem MovedTo.point_iff (points : ∀ v x, γ v x ↔ (D.space v).IsPoint x ∧ contains v x)
    (h : a.MovedTo D formed contains u x) (ha : a.IsFormed D formed) (within : a.env.Within u)
    (admits : u.Admits ρ) : γ x (u.point ρ) ↔ a.Has γ ρ := by
  rw [Has, points, points, h.space, ha.space, h.contains_iff, isPoint_point, isPoint_point]
  exact and_congr_left fun _ => iff_of_true admits (within.admits admits)

theorem failsOnClash_binary {id : OperationId} {f : V → V → Op α} {Q : Environment → α → Prop}
    (inserts : D.InsertsExactly formed contains (m.request id)) (ha : a.IsFormed D formed)
    (hb : b.IsFormed D formed)
    (h : ∀ u x y, IsUnion a.env b.env u → a.MovedTo D formed contains u x →
      b.MovedTo D formed contains u y → Op.Returns (m.request id) (f x y) (Q u)) :
    FailsOnClash m a.env b.env (binary D id f a b) fun r =>
      IsUnion a.env b.env r.1 ∧ Q r.1 r.2 := by
  rcases union_cases ha.env hb.env with ⟨v, clash, error⟩ | ⟨none, u, union, least⟩
  · have changes : a.env.unionWithChanges b.env = .error (.incompatibleEnvironment v) := by
      rw [unionWithChanges, error]
      rfl
    have failed : Fails m (binary D id f a b) fun failure =>
        ∃ w, a.env.Clash b.env w ∧ failure = .incompatibleEnvironment w :=
      (fails_attempt changes ⟨v, clash, rfl⟩).bind
    exact ⟨fun _ _ => failed, fun none => absurd clash (none v)⟩
  · refine ⟨fun v clash => absurd clash (none v), fun _ => ?_⟩
    have changes : a.env.unionWithChanges b.env = .ok (u,
        proper (a.env.embedding? u), proper (b.env.embedding? u)) := by
      rw [unionWithChanges, union]
      rfl
    have combined : Op.Ensures (m.request id) False (do
        let x ← embed D a.value (proper (a.env.embedding? u))
        let y ← embed D b.value (proper (b.env.embedding? u))
        f x y) (Q u) := by
      refine (returns_embed inserts ha least.valid least.left).ensures.bind fun x movedA => ?_
      refine (returns_embed inserts hb least.valid least.right).ensures.bind fun y movedB => ?_
      exact (h u x y least movedA movedB).ensures
    rw [binary, changes]
    refine (returns_perform (combined.returns not_false)).bind fun r after holds => ?_
    exact returns_pure ⟨least, holds⟩

end AbstractValue

/-! ### Combination by name -/

/-- What is true of two values of one manager, over any two environments. -/
structure Domain.CombinesByName (D : Domain V) (formed : V → Prop) (γ : V → List Rat → Prop)
    (m : Manager) : Prop where
  meet : ∀ a b, a.IsFormed D formed → b.IsFormed D formed → a.manager = b.manager →
    FailsOnClash m a.env b.env (meet D a b) fun w =>
      IsUnion a.env b.env w.env ∧ w.IsFormed D formed ∧ w.manager = a.manager ∧
        ∀ ρ, w.Has γ ρ ↔ a.Has γ ρ ∧ b.Has γ ρ
  join : ∀ a b, a.IsFormed D formed → b.IsFormed D formed → a.manager = b.manager →
    FailsOnClash m a.env b.env (join D a b) fun w =>
      IsUnion a.env b.env w.env ∧ w.IsFormed D formed ∧ w.manager = a.manager ∧
        ∀ ρ, w.env.Admits ρ → a.Has γ ρ ∨ b.Has γ ρ → w.Has γ ρ
  widening : ∀ a b, a.IsFormed D formed → b.IsFormed D formed → a.manager = b.manager →
    FailsOnClash m a.env b.env (widening D a b) fun w =>
      IsUnion a.env b.env w.env ∧ w.IsFormed D formed ∧ w.manager = a.manager ∧
        ∀ ρ, w.env.Admits ρ → a.Has γ ρ ∨ b.Has γ ρ → w.Has γ ρ
  isLeq : ∀ a b, a.IsFormed D formed → b.IsFormed D formed → a.manager = b.manager →
    FailsOnClash m a.env b.env (isLeq D a b) fun answer =>
      answer = true → ∀ ρ, a.env.Admits ρ → b.env.Admits ρ → a.Has γ ρ → b.Has γ ρ

section ByName

variable {D : Domain V} {formed : V → Prop} {contains γ : V → List Rat → Prop} {m : Manager}
  {a b : AbstractValue V} {u : Environment} {x y : V} {ρ : String → Rat}

theorem AbstractValue.Has.admits
    (points : ∀ v x, γ v x ↔ (D.space v).IsPoint x ∧ contains v x) (ha : a.IsFormed D formed)
    (h : a.Has γ ρ) : a.env.Admits ρ := by
  have isPoint := ((points _ _).1 h).1
  rwa [ha.space, isPoint_point] at isPoint

private theorem renewed {id : OperationId} {operation : String} {f : V → V → Op V}
    {post : AbstractValue V → Prop} (combines : D.Combines formed contains γ (m.request id))
    (ha : a.IsFormed D formed) (hb : b.IsFormed D formed) (same : a.manager = b.manager)
    (h : ∀ u x y, IsUnion a.env b.env u → a.MovedTo D formed contains u x →
      b.MovedTo D formed contains u y → Op.Returns (m.request id) (f x y) fun w =>
        formed w ∧ D.space w = D.space x ∧ post ⟨a.manager, u, w⟩) :
    FailsOnClash m a.env b.env (do
      requireSameManager operation a b
      return a.renew (← binary D id f a b)) fun w =>
        IsUnion a.env b.env w.env ∧ w.IsFormed D formed ∧ w.manager = a.manager ∧
          post w := by
  rw [requireSameManager, if_pos same]
  refine (failsOnClash_binary (Q := fun u w => formed w ∧ D.space w = u.space ∧
    post ⟨a.manager, u, w⟩) combines.inserts ha hb fun u x y least movedA movedB => ?_).map ?_
  · refine (h u x y least movedA movedB).mono fun w result => ?_
    exact ⟨result.1, result.2.1.trans movedA.space, result.2.2⟩
  · rintro ⟨u, w⟩ ⟨least, hw, space, holds⟩
    exact ⟨least, ⟨least.valid, hw, space⟩, rfl, holds⟩

theorem Domain.Combines.byName (combines : ∀ id, D.Combines formed contains γ (m.request id)) :
    D.CombinesByName formed γ m where
  meet a b ha hb same := by
    refine renewed (combines .meet) ha hb same fun u x y least movedA movedB => ?_
    refine ((combines .meet).meet x y movedA.value movedB.value
      (movedA.space.trans movedB.space.symm)).mono fun w met => ?_
    obtain ⟨hw, space, points⟩ := met
    refine ⟨hw, space, fun ρ => (points _).trans ?_⟩
    have moved (admits : u.Admits ρ) : γ x (u.point ρ) ∧ γ y (u.point ρ) ↔ a.Has γ ρ ∧ b.Has γ ρ :=
      and_congr (movedA.point_iff (combines .meet).points ha least.left admits)
        (movedB.point_iff (combines .meet).points hb least.right admits)
    constructor
    · intro both
      have isPoint := (((combines .meet).points _ _).1 both.1).1
      rw [movedA.space, isPoint_point] at isPoint
      exact (moved isPoint).1 both
    · intro both
      exact (moved (least.admits (both.1.admits (combines .meet).points ha)
        (both.2.admits (combines .meet).points hb))).2 both
  join a b ha hb same := by
    refine renewed (combines .join) ha hb same fun u x y least movedA movedB => ?_
    refine ((combines .join).join x y movedA.value movedB.value
      (movedA.space.trans movedB.space.symm)).mono fun w joined => ?_
    obtain ⟨hw, space, points⟩ := joined
    refine ⟨hw, space, fun ρ admits inside => points _ ?_⟩
    rwa [movedA.point_iff (combines .join).points ha least.left admits,
      movedB.point_iff (combines .join).points hb least.right admits]
  widening a b ha hb same := by
    refine renewed (combines .widening) ha hb same fun u x y least movedA movedB => ?_
    refine ((combines .widening).widening x y movedA.value movedB.value
      (movedA.space.trans movedB.space.symm)).mono fun w widened => ?_
    obtain ⟨hw, space, points⟩ := widened
    refine ⟨hw, space, fun ρ admits inside => points _ ?_⟩
    rwa [movedA.point_iff (combines .widening).points ha least.left admits,
      movedB.point_iff (combines .widening).points hb least.right admits]
  isLeq a b ha hb same := by
    rw [AbstractValue.isLeq, requireSameManager, if_pos same]
    refine (failsOnClash_binary (Q := fun _ answer => answer = true → ∀ ρ,
      a.env.Admits ρ → b.env.Admits ρ → a.Has γ ρ → b.Has γ ρ) (combines .isLeq).inserts ha hb
        fun u x y least movedA movedB => ?_).map fun r h => h.2
    refine ((combines .isLeq).isLeq x y movedA.value movedB.value
      (movedA.space.trans movedB.space.symm)).mono fun answer includes yes ρ left right inA => ?_
    have admits := least.admits left right
    rw [← movedB.point_iff (combines .isLeq).points hb least.right admits]
    apply includes yes
    rwa [movedA.point_iff (combines .isLeq).points ha least.left admits]

end ByName

/-! ### The domains -/

namespace Box

variable {v : Box} {c : SpaceChange} {x : List Rat} {request : Request}

theorem hasPoint_iff_inRanges : v.HasPoint x ↔ v.space.IsPoint x ∧ v.InRanges x := by
  cases v with
  | empty s => exact ⟨False.elim, And.right⟩
  | ranges s bs => exact .rfl

theorem insertsExactly (k : Kind) (request : Request) :
    (core k).InsertsExactly (Fits k) InRanges request := by
  intro v c hv fits
  cases v with
  | empty s => exact Op.returns_pure ⟨fits_empty _, rfl, fun y _ => .rfl⟩
  | ranges s bs =>
    obtain ⟨size, -⟩ := hv.formed
    obtain ⟨length, new⟩ := insertInto_spec hv fits false
    have made := make_eq_ranges length fun i mem => (new i mem).2
    refine (Op.ensures_ofExcept made ?_).returns not_false
    refine ⟨⟨⟨length, fun i mem => (new i mem).2⟩, fun i mem => (new i mem).1⟩, rfl, ?_⟩
    intro y _
    have value {d : Nat} (within : d < s.size) :
        (readAt (c.shifts s.size) y).getD d 0 = y.getD (c.shift d) 0 :=
      getD_readAt (by simp [shifts, within]) y
    constructor
    · intro inside d i found
      have within : d < s.size := size ▸ lt_of_getElem? found
      exact value within ▸ inside _ i (getElem?_insertInto_shift _ found)
    · intro inside j i found
      have reach : ∀ d ∈ c.dims, d ≤ bs.length := size.symm ▸ fits.reach
      rcases getElem?_insertInto fits.sorted reach found with ⟨d, old, rfl⟩ | ⟨rfl, -⟩
      · have within : d < s.size := size ▸ lt_of_getElem? old
        exact value within ▸ inside d i old
      · exact has_filler Bool.noConfusion

theorem Fits.hasKind {k : Kind} (h : v.Fits k) : v.HasKind k :=
  ⟨h.formed, fun i mem => (h.bounds i mem).lo.kind⟩

theorem combines {k : Kind} (outward : k.IsOutward) (request : Request) :
    (domain k).Combines (Fits k) InRanges HasPoint request where
  points _ _ := hasPoint_iff_inRanges
  inserts := insertsExactly k request
  meet a b ha hb same := by
    have least : Op.Returns request ((core k).meet a b) _ :=
      returns_meet (Interval.isEmpty_bottom outward) ha.hasKind hb.hasKind same
    refine (((ensures_meet ha hb same).and least.ensures).mono fun w met => ?_).returns not_false
    obtain ⟨⟨hw, space, includes⟩, narrower⟩ := met
    refine ⟨hw, space, fun x => ⟨fun inside => ⟨?_, ?_⟩, fun both => includes x both.1 both.2⟩⟩
    · exact .of_within hw.formed ha.formed space narrower.left inside
    · exact .of_within hw.formed hb.formed (space.trans same) narrower.right inside
  join _ _ ha hb same := (ensures_join ha hb same).returns not_false
  widening _ _ ha hb same := (ensures_widening ha hb same).returns not_false
  isLeq _ _ ha hb same := (ensures_isLeq ha.formed hb.formed same).returns not_false

end Box

theorem Octagon.combines (free : ¬ request.Limited) :
    domain.Combines IsSquare Contains HasPoint request where
  points _ _ := .rfl
  inserts _ _ square fits := (reports_addDimensions square free fits).returns
  meet _ _ square square' same := (ensures_meet square square' same).returns not_false
  join _ _ square square' same := (ensures_join square square' same).returns not_false
  widening _ _ square square' same :=
    ((wideningStops request).ensures_widening (fun _ _ => ensures_isLeq_includes) square square'
      same).returns not_false
  isLeq _ _ square square' same := (ensures_isLeq_includes square square' same).returns not_false

theorem Polyhedron.combines (strict : Bool) (free : ¬ request.Limited) :
    (domain strict).Combines (fun _ => True) Contains HasPoint request where
  points _ _ := .rfl
  inserts p c _ fits := by
    have added : Op.Ensures request False (p.addDimensions c false) _ :=
      ensures_addDimensions fits Bool.noConfusion
    refine (added.mono fun q grown => ?_).returns not_false
    refine ⟨trivial, grown.1, fun y length => (grown.2 y).trans ?_⟩
    exact ⟨fun inside => inside.2.1, fun inside => ⟨length, inside, Bool.noConfusion⟩⟩
  meet a b _ _ same := by
    refine ((ensures_meet same).mono fun p met => ?_).returns not_false
    refine ⟨trivial, met.1, fun x => ?_⟩
    have same : a.space = b.space := same
    rw [HasPoint, HasPoint, HasPoint, met.1, met.2, ← same]
    tauto
  join a b _ _ same := by
    refine ((ensures_join same).mono fun p joined => ?_).returns free
    exact ⟨trivial, joined.1, fun x inside => ⟨isPoint_of_or same joined.1 inside,
      joined.2 x (inside.imp .right .right)⟩⟩
  widening a b _ _ same := by
    refine ((ensures_widening same).mono fun p widened => ?_).returns free
    exact ⟨trivial, widened.1, fun x inside => ⟨isPoint_of_or same widened.1 inside,
      widened.2 x (inside.imp .right .right)⟩⟩
  isLeq a b _ _ same := by
    have same : a.space = b.space := same
    refine ((ensures_isLeq same).mono fun answer included yes x inside => ?_).returns free
    exact ⟨same ▸ inside.1, included.1 yes x inside.2⟩

/-- The meet, the join, the widening and the inclusion of two values over different environments are
right by the names of their variables, for boxes with bounds of a kind that rounds outward, for
octagons and for polyhedra, if no limit is set to the size of objects. -/
theorem combined_by_name (m : Manager) (unlimited : m.Unlimited) :
    (∀ k : Kind, k.IsOutward → (Box.domain k).CombinesByName (Box.Fits k) Box.HasPoint m) ∧
    Octagon.domain.CombinesByName Octagon.IsSquare Octagon.HasPoint m ∧
    ∀ strict, (Polyhedron.domain strict).CombinesByName (fun _ => True) Polyhedron.HasPoint m :=
  ⟨fun _ outward => Domain.Combines.byName fun id => Box.combines outward (m.request id),
    Domain.Combines.byName fun id => Octagon.combines (unlimited.not_limited id),
    fun strict =>
      Domain.Combines.byName fun id => Polyhedron.combines strict (unlimited.not_limited id)⟩

/-- The meet of a range of `y` with a range of `x`, which comes first in the common environment; and
a variable with two types. -/
theorem ranges_combined_by_name :
    let ofY : AbstractValue Box := ⟨0, ⟨[], ["y"]⟩, .ranges ⟨0, 1⟩ [.ofExt (.fin 0) (.fin 1)]⟩
    let ofX : AbstractValue Box := ⟨0, ⟨[], ["x"]⟩, .ranges ⟨0, 1⟩ [.ofExt (.fin 2) (.fin 3)]⟩
    let integer : AbstractValue Box := ⟨0, ⟨["x"], []⟩, .ranges ⟨1, 0⟩ [.ofExt (.fin 2) (.fin 3)]⟩
    Manager.start.Unlimited ∧
    Managed.Returns .start (AbstractValue.meet (Box.domain .rational) ofY ofX) (fun w =>
      Environment.IsUnion ⟨[], ["y"]⟩ ⟨[], ["x"]⟩ w.env ∧ ∀ ρ, w.Has Box.HasPoint ρ ↔
        (0 ≤ ρ "y" ∧ ρ "y" ≤ 1) ∧ 2 ≤ ρ "x" ∧ ρ "x" ≤ 3) ∧
    Managed.Fails .start (AbstractValue.join (Box.domain .rational) ofX integer) fun failure =>
      ∃ v, Environment.Clash ⟨[], ["x"]⟩ ⟨["x"], []⟩ v ∧ failure = .incompatibleEnvironment v := by
  intro ofY ofX integer
  have unlimited : Manager.start.Unlimited := fun _ => rfl
  obtain ⟨boxes, -⟩ := combined_by_name .start unlimited
  have rational := boxes .rational Kind.isOutward_rational
  have formed (env : Environment) (s : Space) (lo hi : Rat) (valid : env.IsValid)
      (space : s = env.space) (size : s.size = 1) (full : lo ≤ hi) :
      AbstractValue.IsFormed (Box.domain .rational) (Box.Fits .rational)
        ⟨0, env, .ranges s [.ofExt (.fin lo) (.fin hi)]⟩ := by
    refine ⟨valid, Box.fits_rational_iff.2 ⟨⟨size.symm, ?_⟩, ?_⟩, space⟩
    · intro i mem
      rw [List.mem_singleton.1 mem, Interval.isEmpty_eq_false_iff]
      exact ExtRat.fin_le_fin.2 full
    · simp [Box.bounds, Interval.isOf_rational_iff, Interval.isRational_ofExt]
  have hasY := formed ⟨[], ["y"]⟩ ⟨0, 1⟩ 0 1 ⟨by simp, by simp, by simp⟩ rfl rfl (by norm_num)
  have hasX := formed ⟨[], ["x"]⟩ ⟨0, 1⟩ 2 3 ⟨by simp, by simp, by simp⟩ rfl rfl (by norm_num)
  have hasInteger := formed ⟨["x"], []⟩ ⟨1, 0⟩ 2 3 ⟨by simp, by simp, by simp⟩ rfl rfl (by norm_num)
  refine ⟨unlimited, ?_, (rational.join ofX integer hasX hasInteger rfl).fails "x" ?_⟩
  · have met :=
      (rational.meet ofY ofX hasY hasX rfl).returns (by simp [Environment.Clash, ofY, ofX])
    obtain ⟨w, run, union, -, -, points⟩ := met
    have real (v : String) (lo hi : Rat) (ρ : String → Rat) : AbstractValue.Has Box.HasPoint
        ⟨0, ⟨[], [v]⟩, .ranges ⟨0, 1⟩ [.ofExt (.fin lo) (.fin hi)]⟩ ρ ↔ lo ≤ ρ v ∧ ρ v ≤ hi := by
      change Space.IsPoint ⟨0, 1⟩ [ρ v] ∧ InBox [_] [ρ v] ↔ _
      rw [and_iff_right (Space.isPoint_of_real rfl rfl), inBox_cons, and_iff_left inBox_nil]
      exact and_congr ExtRat.fin_le_fin ExtRat.fin_le_fin
    refine ⟨w, run, union, fun ρ => (points ρ).trans ?_⟩
    exact and_congr (real "y" 0 1 ρ) (real "x" 2 3 ρ)
  · simp [Environment.Clash, ofX, integer]

end Enclosure
