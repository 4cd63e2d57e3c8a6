import Enclosure.Proofs.FreeDimensions

/-!
# Changes of environment

A value is moved to another environment through the least one that has the variables of both.
-/

namespace Enclosure

open List Op Environment Managed AbstractValue

variable {V : Type}

/-- The variable is constrained: from every valuation in the value, setting the variable to some
integer leads out of it. -/
structure AbstractValue.Constrains (proper : V → Prop) (γ : V → List Rat → Prop)
    (a : AbstractValue V) (x : String) : Prop where
  leaves : ∀ ρ, a.Has γ ρ → ∃ q : Rat, q.den = 1 ∧ ¬ a.Has γ (Function.update ρ x q)
  inhabited : a.env.ints = [] → proper a.value → ∃ ρ, a.Has γ ρ

/-- What is true of values that are moved without projection. -/
structure Domain.ChangesFaithfully (D : Domain V) (formed proper : V → Prop)
    (γ : V → List Rat → Prop) (m : Manager) : Prop where
  change : ∀ a env, a.IsFormed D formed → env.IsValid →
    Returns m (AbstractValue.changeEnvironment D a env false) (fun w =>
      w.IsFormed D formed ∧ w.manager = a.manager ∧ w.env = env ∧
        ∀ ρ, a.env.Admits ρ → env.Admits ρ → (w.Has γ ρ ↔ a.Has γ ρ)) ∨
    Fails m (AbstractValue.changeEnvironment D a env false) fun failure =>
      (∃ x, a.env.Clash env x ∧ failure = .incompatibleEnvironment x) ∨
      ∃ x ∈ a.env.vars, x ∉ env.vars ∧ failure = .constrainedVariable x ∧ a.Constrains proper γ x
  minimize : ∀ a, a.IsFormed D formed →
    Returns m (AbstractValue.minimizeEnvironment D a) fun w =>
      w.IsFormed D formed ∧ w.manager = a.manager ∧ w.env.Within a.env ∧
      (∀ ρ, a.env.Admits ρ → (w.Has γ ρ ↔ a.Has γ ρ)) ∧
      (Returns m (AbstractValue.isBottom D a) (· = false) →
        ∀ x ∈ w.env.vars, Returns m (AbstractValue.isFree D w x) (· = false)) ∧
      ∀ ρ, a.Has γ ρ → ∀ x ∈ w.env.vars, ∃ q : Rat, q.den = 1 ∧ ¬ w.Has γ (Function.update ρ x q)

namespace AbstractValue

variable {D : Domain V} {formed void proper : V → Prop} {free : V → Nat → Prop}
  {contains γ : V → List Rat → Prop} {request : Request} {a : AbstractValue V} {u env : Environment}
  {m : Manager} {v : V} {dims : List Nat}

/-! ### Removal of free variables -/

section

variable (drops : D.DropsFree formed void free contains γ request)
include drops

theorem returns_firstConstrained? (hv : formed v) (inside : ∀ d ∈ dims, d < (D.space v).size) :
    Returns request (firstConstrained? D v dims) fun found =>
      (found = none ∧ ∀ d ∈ dims, free v d) ∨ ∃ d ∈ dims, found = some d ∧ ¬ free v d := by
  apply Ensures.returns not_false
  induction dims with
  | nil => exact ensures_pure (.inl ⟨rfl, by simp⟩)
  | cons d dims ih =>
    obtain ⟨first, rest⟩ := forall_mem_cons.1 inside
    refine (drops.isFree v d hv first).ensures.bind fun answer known => ?_
    cases answer with
    | true =>
      refine (ih rest).mono fun found later => ?_
      rcases later with ⟨none, all⟩ | ⟨e, mem, same, constrained⟩
      · exact .inl ⟨none, forall_mem_cons.2 ⟨known.1 rfl, all⟩⟩
      · exact .inr ⟨e, mem_cons_of_mem d mem, same, constrained⟩
    | false =>
      refine ensures_pure (.inr ⟨d, mem_cons_self, rfl, fun free => ?_⟩)
      exact Bool.false_ne_true (known.2 free)

theorem returns_removal {x : V} (hu : u.IsValid) (he : env.IsValid) (within : env.Within u)
    (hx : formed x) (space : D.space x = u.space) (dropped : ∀ d ∈ (u.removal env).dims, free x d) :
    Returns request (D.removeDimensions x (u.removal env)) fun w =>
      formed w ∧ D.space w = env.space ∧
      (∀ ρ, u.Admits ρ → (γ w (env.point ρ) ↔ γ x (u.point ρ))) ∧
      (¬ void x → ∀ v (i d : Nat), env.vars[i]? = some v → u.vars[d]? = some v → free w i →
        free x d) := by
  obtain ⟨fits, left, read⟩ := removal_spec hu he within
  refine (drops.removes x _ hx (space ▸ fits) dropped).mono fun w removed => ?_
  obtain ⟨hw, spaceW, points, keeps⟩ := removed
  rw [space] at spaceW points keeps
  rw [left] at spaceW
  refine ⟨hw, spaceW, fun ρ admits => ?_, fun full v i d found place => ?_⟩
  · have point : u.space.IsPoint (u.point ρ) := isPoint_point.2 admits
    have point' : env.space.IsPoint (env.point ρ) :=
      isPoint_point.2 (within.admits admits)
    have iff := points (u.point ρ) point
    rw [spaceW] at iff
    rw [← read ρ]
    exact iff ((read ρ).symm ▸ point')
  · exact keeps full i d (getElem?_kept hu he within found place)

theorem MovedTo.leaves {x : V} {d : Nat} {v : String} {ρ : String → Rat} (hu : u.IsValid)
    (moved : a.MovedTo D formed contains u x) (found : u.vars[d]? = some v)
    (constrained : ¬ free x d) (has : a.Has γ ρ) :
    ∃ q : Rat, q.den = 1 ∧ ¬ a.Has γ (Function.update ρ v q) := by
  have inside : d < u.size := length_vars ▸ lt_of_getElem? found
  have contained := (moved.contains_iff ρ).2 ((drops.points _ _).1 has).2
  obtain ⟨q, integer, outside⟩ := drops.leaves x d _ moved.value (moved.space ▸ inside)
    (moved.space ▸ length_point) constrained contained
  refine ⟨q, integer, fun stays => outside ?_⟩
  rw [point, set_map_vars hu found, ← point, moved.contains_iff]
  exact ((drops.points _ _).1 stays).2

/-! ### Another environment -/

theorem returns_embed_inhabited (reaches : D.Reaches formed proper free contains request)
    (ha : a.IsFormed D formed) (hu : u.IsValid) (within : a.env.Within u) :
    Returns request (embed D a.value (Environment.proper (a.env.embedding? u))) fun x =>
      a.MovedTo D formed contains u x ∧
        (a.env.ints = [] → proper a.value → ∀ d, ¬ free x d → ∃ ρ, a.Has γ ρ) := by
  have moved := returns_embed drops.inserts ha hu within
  by_cases good : a.env.ints = [] ∧ proper a.value
  · obtain ⟨real, good⟩ := good
    have noInts : (D.space a.value).ints = 0 := by
      rw [ha.space, space, real]
      rfl
    have valuation {y : List Rat} (length : y.length = (D.space a.value).size)
        (contained : contains a.value y) : ∃ ρ, a.Has γ ρ := by
      rw [ha.space] at length
      obtain ⟨ρ, rfl⟩ := exists_map_vars_eq ha.env 0 length
      exact ⟨ρ, (drops.points _ _).2 ⟨Space.isPoint_of_real noInts (ha.space ▸ length), contained⟩⟩
    have inhabited : Returns request
        (embed D a.value (Environment.proper (a.env.embedding? u))) fun x =>
          ∀ d, ¬ free x d → ∃ ρ, a.Has γ ρ := by
      rcases embed_cases D a.value ha.env hu within with ⟨-, run⟩ | ⟨c, embeds, run⟩
      · refine run ▸ Op.returns_pure fun d constrained => ?_
        obtain ⟨y, length, contained⟩ := reaches.self _ d ha.value good noInts constrained
        exact valuation length contained
      · rw [run]
        refine (reaches.inserted _ c ha.value good noInts (ha.space ▸ embeds.fits)).mono
          fun x reached d constrained => ?_
        obtain ⟨y, length, contained⟩ := reached d constrained
        exact valuation length contained
    exact (moved.and inhabited).mono fun x both => ⟨both.1, fun _ _ => both.2⟩
  · exact moved.mono fun x moved => ⟨moved, fun real proper => absurd ⟨real, proper⟩ good⟩

end

/-! ### The variables that are not free -/

theorem IsFormed.movedTo (ha : a.IsFormed D formed) : a.MovedTo D formed contains a.env a.value :=
  ⟨ha.value, ha.space, fun _ => .rfl⟩

structure IsMinimal (D : Domain V) (formed void : V → Prop) (free : V → Nat → Prop)
    (γ : V → List Rat → Prop) (a w : AbstractValue V) : Prop where
  formed : w.IsFormed D formed
  manager : w.manager = a.manager
  within : w.env.Within a.env
  points : ∀ ρ, a.env.Admits ρ → (w.Has γ ρ ↔ a.Has γ ρ)
  constrained : ¬ void a.value → ∀ d < w.env.size, ¬ free w.value d

theorem returns_isMinimal
    (drops : D.DropsFree formed void free contains γ (m.request .changeEnvironment))
    (ha : a.IsFormed D formed) :
    Returns m (minimizeEnvironment D a) (a.IsMinimal D formed void free γ) := by
  classical
  have unchanged (constrained : ¬ void a.value → ∀ d < a.env.size, ¬ free a.value d) :
      a.IsMinimal D formed void free γ a :=
    ⟨ha, rfl, ⟨fun _ => id, fun _ => id⟩, fun _ _ => .rfl, constrained⟩
  refine (returns_perform ?_).bind fun r _ minimal => returns_pure minimal
  have tested : ∀ d ∈ range a.env.size,
      Ensures (m.request .changeEnvironment) False (D.isFree a.value d)
        (· = decide (free a.value d)) := by
    intro d mem
    refine (drops.isFree a.value d ha.value ?_).ensures.mono fun answer known => ?_
    · rw [ha.space]
      exact mem_range.1 mem
    · rw [Bool.eq_iff_iff, known, decide_eq_true_iff]
  refine Ensures.returns not_false ((ensures_filterM_eq _ tested).bind fun found kept => ?_)
  have mem_found (d : Nat) : d ∈ found ↔ d < a.env.size ∧ free a.value d := by
    simp [kept]
  split
  · rename_i none
    rw [isEmpty_iff.1 none] at mem_found
    refine ensures_pure (unchanged fun _ d inside free => ?_)
    exact not_mem_nil ((mem_found d).2 ⟨inside, free⟩)
  · refine (drops.isBottom a.value ha.value).ensures.bind fun bottom known => ?_
    split
    · rename_i yes
      exact ensures_pure (unchanged fun full => absurd (known.1 yes) full)
    · rename_i no
      have full : ¬ void a.value := fun void => no (known.2 void)
      obtain ⟨env, removed, valid, within, left⟩ := remove_dims_spec ha.env found
      refine .ofExceptBind removed ?_
      refine (returns_removal drops ha.env valid within ha.value ha.space ?_).ensures.bind
        fun w rest => ensures_pure ?_
      · intro d dropped
        obtain ⟨v, place, gone⟩ := mem_removal.1 dropped
        exact ((mem_found d).1 (not_not.1 fun kept => gone ((left d v place).2 kept))).2
      · obtain ⟨hw, space, points, keeps⟩ := rest
        refine ⟨⟨valid, hw, space⟩, rfl, within, points, fun _ i inside free => ?_⟩
        -- a variable that is free in what is left was free, and would have been dropped
        have known : i < env.vars.length := length_vars ▸ inside
        obtain ⟨d, within', place⟩ := getElem_of_mem (within.vars (getElem_mem known))
        have place : a.env.vars[d]? = some env.vars[i] :=
          (getElem?_eq_getElem within').trans (congrArg some place)
        have kept := (left d _ place).1 (getElem_mem known)
        refine kept ((mem_found d).2 ⟨length_vars ▸ within', ?_⟩)
        exact keeps full _ i d (getElem?_eq_getElem known) place free

theorem returns_isFree (drops : D.DropsFree formed void free contains γ (m.request .isFree))
    (ha : a.IsFormed D formed) {x : String} (known : x ∈ a.env.vars) :
    ∃ d, a.env.vars[d]? = some x ∧
      Returns m (isFree D a x) fun answer => answer = true ↔ free a.value d := by
  obtain ⟨d, found⟩ := Option.isSome_iff_exists.1 (isSome_idxOf?.2 known)
  obtain ⟨inside, place, -⟩ := idxOf?_eq_some_iff.1 found
  refine ⟨d, List.getElem?_eq_some_iff.2 ⟨inside, place⟩, ?_⟩
  have dimension : a.env.dimension x = .ok d := by
    rw [dimension, dimension?, found]
  rw [isFree, withVariable, dimension]
  refine returns_perform (drops.isFree a.value d ha.value ?_)
  rw [ha.space]
  exact inside.trans_eq length_vars

theorem not_void_of_isBottom (drops : D.DropsFree formed void free contains γ (m.request .isBottom))
    (ha : a.IsFormed D formed) (query : Returns m (isBottom D a) (· = false)) : ¬ void a.value := by
  obtain ⟨_, run, known⟩ := returns_perform (drops.isBottom a.value ha.value)
  obtain ⟨-, run', rfl⟩ := query
  cases run.symm.trans run'
  exact fun none => Bool.false_ne_true (known.2 none)

end AbstractValue

/-! ### The domains -/

theorem Domain.DropsFree.changesFaithfully {D : Domain V} {formed void proper : V → Prop}
    {free : V → Nat → Prop} {contains γ : V → List Rat → Prop} {m : Manager}
    (drops : ∀ id, D.DropsFree formed void free contains γ (m.request id))
    (reaches : D.Reaches formed proper free contains (m.request .changeEnvironment)) :
    D.ChangesFaithfully formed proper γ m where
  change a env ha he := by
    have drops := drops .changeEnvironment
    rcases union_cases ha.env he with ⟨x, clash, error⟩ | ⟨-, u, union, least⟩
    · have transfer : a.env.transfer env = .error (.incompatibleEnvironment x) := by
        rw [Environment.transfer, error]
        rfl
      exact .inr (fails_attempt transfer (.inl ⟨x, clash, rfl⟩)).bind
    · have transfer : a.env.transfer env = .ok ⟨Environment.proper (a.env.embedding? u),
          Environment.proper (some (u.removal env))⟩ := by
        rw [Environment.transfer, union]
        rfl
      rw [changeEnvironment, transfer, union]
      refine (returns_perform (Q := fun result =>
        (∃ w, result = .ok w ∧ formed w ∧ D.space w = env.space ∧
          ∀ ρ, u.Admits ρ → (γ w (env.point ρ) ↔ a.Has γ ρ)) ∨
        ∃ d x, result = .error d ∧ u.vars[d]? = some x ∧ x ∉ env.vars ∧
          a.Constrains proper γ x) ?_).bind_cases fun result after ended => ?_
      · refine Ensures.returns not_false (.bind
          (returns_embed_inhabited drops reaches ha least.valid least.left).ensures
          fun x embedded => ?_)
        obtain ⟨moved, inhabited⟩ := embedded
        dsimp only
        rw [Environment.proper, Option.filter_some]
        by_cases none : (u.removal env).isEmpty = true
        · -- no variable is dropped, so the common environment is the one that is asked for
          obtain rfl := least.right.eq_of_isEmpty_removal least.valid he none
          rw [none]
          exact ensures_pure (.inl ⟨x, rfl, moved.value, moved.space, fun ρ admits =>
            moved.point_iff drops.points ha least.left admits⟩)
        · rw [if_pos (by simpa using none)]
          have fits := (removal_spec least.valid he least.right).1
          refine .bind (returns_firstConstrained? drops moved.value
            (moved.space ▸ fits.inside)).ensures fun first search => ?_
          rcases search with ⟨rfl, free⟩ | ⟨d, dropped, rfl, constrained⟩
          · refine (returns_removal drops least.valid he least.right moved.value moved.space
              free).ensures.bind fun w removed => ensures_pure (.inl ⟨w, rfl, removed.1,
                removed.2.1, fun ρ admits => (removed.2.2.1 ρ admits).trans ?_⟩)
            exact moved.point_iff drops.points ha least.left admits
          · obtain ⟨v, found, gone⟩ := mem_removal.1 dropped
            exact ensures_pure (.inr ⟨d, v, rfl, found, gone,
              ⟨fun ρ has => moved.leaves drops least.valid found constrained has,
                fun real good => inhabited real good d constrained⟩⟩)
      · -- the failure names the variable at the dimension, in the common environment
        rcases ended with ⟨w, rfl, hw, space, points⟩ | ⟨d, x, rfl, found, gone, constrains⟩
        · refine .inl (returns_pure ⟨⟨he, hw, space⟩, rfl, rfl, fun ρ left right => ?_⟩)
          exact points ρ (least.admits left right)
        · refine .inr ⟨_, rfl, .inr ⟨x, ?_, gone, ?_, constrains⟩⟩
          · exact (least.mem_vars_iff.1 (mem_of_getElem? found)).resolve_right gone
          · rw [dimensionName, var?, found]
            rfl
  minimize a ha := by
    obtain ⟨w, run, minimal⟩ := returns_isMinimal (drops .changeEnvironment) ha
    refine ⟨w, run, minimal.formed, minimal.manager, minimal.within, minimal.points,
      fun query x known => ?_, fun ρ has x known => ?_⟩
    · obtain ⟨d, place, answer, run, iff⟩ :=
        returns_isFree (drops .isFree) minimal.formed known
      have full := not_void_of_isBottom (drops .isBottom) ha query
      have inside := length_vars ▸ lt_of_getElem? place
      refine ⟨answer, run, eq_false_of_ne_true fun yes => ?_⟩
      exact minimal.constrained full d inside (iff.1 yes)
    · have full : ¬ void a.value := fun none => (drops .isFree).vacant _ _ ha.value none has
      obtain ⟨d, inside, place⟩ := getElem_of_mem known
      have has' := (minimal.points ρ (has.admits (drops .isFree).points ha)).2 has
      refine minimal.formed.movedTo.leaves (drops .isFree) minimal.formed.env
        (List.getElem?_eq_some_iff.2 ⟨inside, place⟩) (minimal.constrained full d ?_) has'
      exact length_vars ▸ inside

/-- Nothing is lost without projection, for boxes with bounds of a kind that rounds outward, for all
octagons that can be built and for polyhedra, if no limit is set to the size of objects. -/
theorem environment_changes_lose_nothing (m : Manager) (unlimited : m.Unlimited) :
    (∀ k : Kind, k.IsOutward →
      (Box.domain k).ChangesFaithfully (Box.Fits k) Box.IsProper Box.HasPoint m) ∧
    (Octagon.domain.ChangesFaithfully Octagon.IsMirrored
        (Octagon.domain.Built fun c => c.IsValid ∧ c.HasProperRanges ∧ Octagon.KeepsReals c)
        Octagon.HasPoint m ∧
      ∀ o, Octagon.domain.Built Construction.IsValid o → o.IsMirrored) ∧
    ∀ strict, (Polyhedron.domain strict).ChangesFaithfully (fun _ => True) (fun _ => True)
      Polyhedron.HasPoint m := by
  refine ⟨fun k outward => ?_, ⟨?_, fun o => Octagon.keeps_isMirrored.of_built⟩, fun strict => ?_⟩
  · exact Domain.DropsFree.changesFaithfully (fun id => Box.dropsFree outward (m.request id))
      (Box.reaches k _)
  · refine Domain.DropsFree.changesFaithfully
      (fun id => Octagon.dropsFree (unlimited.not_limited id))
      ((Octagon.reaches (unlimited.not_limited _)).mono fun o built => ?_)
    exact Octagon.keeps_markedOn.of_built built
  · exact Domain.DropsFree.changesFaithfully
      (fun id => Polyhedron.dropsFree strict (unlimited.not_limited id))
      (Polyhedron.reaches strict _)

/-- One variable is at most another one, and nothing is said of the variable between them. -/
theorem unrelated_variable_dropped :
    let ordered : AbstractValue Polyhedron :=
      ⟨0, ⟨[], ["x", "y", "z"]⟩, ⟨0, 3⟩, [⟨[1, 0, -1], 0, false⟩], by decide⟩
    let D := Polyhedron.domain true
    Manager.start.Unlimited ∧
    Managed.Returns .start (AbstractValue.changeEnvironment D ordered ⟨[], ["w", "x", "z"]⟩ false)
      (fun w => w.env = ⟨[], ["w", "x", "z"]⟩ ∧
        ∀ ρ, w.Has Polyhedron.HasPoint ρ ↔ ρ "x" ≤ ρ "z") ∧
    Managed.Fails .start (AbstractValue.changeEnvironment D ordered ⟨[], ["x", "y"]⟩ false)
      (· = .constrainedVariable "z") ∧
    Managed.Returns .start (AbstractValue.minimizeEnvironment D ordered) fun w =>
      (∀ v, v ∈ w.env.vars ↔ v = "x" ∨ v = "z") ∧
        ∀ ρ, w.Has Polyhedron.HasPoint ρ ↔ ρ "x" ≤ ρ "z" := by
  intro ordered D
  have unlimited : Manager.start.Unlimited := fun _ => rfl
  obtain ⟨-, -, polyhedra⟩ := environment_changes_lose_nothing .start unlimited
  have faithful := polyhedra true
  have valid (vars : List String) (sorted : vars.Pairwise (· < ·)) :
      Environment.IsValid ⟨[], vars⟩ :=
    ⟨.nil, sorted, List.disjoint_nil_left _⟩
  have formed : ordered.IsFormed D fun _ => True := ⟨valid _ (by decide), trivial, rfl⟩
  have admits (vars : List String) (ρ : String → Rat) : Environment.Admits ⟨[], vars⟩ ρ :=
    fun v mem => absurd mem List.not_mem_nil
  have has (ρ : String → Rat) : ordered.Has Polyhedron.HasPoint ρ ↔ ρ "x" ≤ ρ "z" := by
    have length : (ordered.env.point ρ).length = ordered.value.space.size := rfl
    rw [AbstractValue.Has, Polyhedron.hasPoint_iff_of_real rfl, Polyhedron.Contains,
      and_iff_right length]
    simp [ordered, Environment.point, Environment.vars, Row.holdsAt, dot]
  have vars {v : String} : v ∈ ordered.env.vars ↔ v = "x" ∨ v = "y" ∨ v = "z" := by
    simp [ordered, Environment.vars]
  have zero : ordered.Has Polyhedron.HasPoint fun _ => 0 := (has _).2 le_rfl
  -- a value with the same valuations has the two variables that are compared, and not the other one
  have needed {w : AbstractValue Polyhedron} {v : String} (other : v = "x" ∨ v = "z")
      (same : ∀ ρ, w.Has Polyhedron.HasPoint ρ ↔ ρ "x" ≤ ρ "z") : v ∈ w.env.vars := by
    by_contra gone
    have stays (q : Rat) : w.Has Polyhedron.HasPoint (Function.update (fun _ => 0) v q) ↔
        w.Has Polyhedron.HasPoint fun _ => 0 := by
      rw [AbstractValue.Has, AbstractValue.Has, Environment.point_update gone]
    have never : ¬ (1 : Rat) ≤ 0 := by norm_num
    rcases other with rfl | rfl
    · exact never (by simpa [same] using stays 1)
    · exact never (by simpa [same] using stays (-1))
  have unrelated (w : AbstractValue Polyhedron)
      (same : ∀ ρ, w.Has Polyhedron.HasPoint ρ ↔ ρ "x" ≤ ρ "z")
      (leaves : ∃ q : Rat, q.den = 1 ∧
        ¬ w.Has Polyhedron.HasPoint (Function.update (fun _ => 0) "y" q)) : False := by
    obtain ⟨q, -, outside⟩ := leaves
    simp [same] at outside
  refine ⟨unlimited, ?_, ?_, ?_⟩
  · rcases faithful.change ordered _ formed (valid ["w", "x", "z"] (by decide)) with
      ⟨w, run, -, -, env, same⟩ | ⟨failure, -, ⟨x, clash, -⟩ | ⟨x, old, new, -, constrains⟩⟩
    · exact ⟨w, run, env, fun ρ => (same ρ (admits _ ρ) (admits _ ρ)).trans (has ρ)⟩
    · simp [Environment.Clash, ordered] at clash
    · rcases vars.1 old with rfl | rfl | rfl
      · simp [Environment.vars] at new
      · exact (unrelated ordered has (constrains.leaves _ zero)).elim
      · simp [Environment.vars] at new
  · rcases faithful.change ordered _ formed (valid ["x", "y"] (by decide)) with
      ⟨w, -, -, -, env, same⟩ | ⟨failure, run, ⟨x, clash, -⟩ | ⟨x, old, new, rfl, -⟩⟩
    · have known : "z" ∈ w.env.vars :=
        needed (.inr rfl) fun ρ => (same ρ (admits _ ρ) (admits _ ρ)).trans (has ρ)
      simp [env, Environment.vars] at known
    · simp [Environment.Clash, ordered] at clash
    · rcases vars.1 old with rfl | rfl | rfl
      · simp [Environment.vars] at new
      · simp [Environment.vars] at new
      · exact ⟨_, run, rfl⟩
  · obtain ⟨w, run, -, -, within, same, -, leaves⟩ := faithful.minimize ordered formed
    have same (ρ : String → Rat) : w.Has Polyhedron.HasPoint ρ ↔ ρ "x" ≤ ρ "z" :=
      (same ρ (admits _ ρ)).trans (has ρ)
    refine ⟨w, run, fun v => ⟨fun known => ?_, fun other => needed other same⟩, same⟩
    rcases vars.1 (within.vars known) with rfl | rfl | rfl
    · exact .inl rfl
    · exact (unrelated w same (leaves _ zero _ known)).elim
    · exact .inr rfl

/-- The range whose bounds are both `+∞` has no number, so that the box and the octagon have no
valuation. -/
theorem empty_range_not_dropped :
    let line : Environment := ⟨[], ["x"]⟩
    let box : AbstractValue Box := ⟨0, line, .ranges ⟨0, 1⟩ [.ofExt .posInf .posInf]⟩
    let octagon : AbstractValue Octagon := ⟨0, line, Octagon.beyond⟩
    let D := Box.domain .rational
    (D.Built Construction.IsValid box.value ∧
      Managed.Fails .start (AbstractValue.changeEnvironment D box ⟨[], []⟩ false)
        (· = .constrainedVariable "x") ∧
      ∀ ρ, ¬ box.Has Box.HasPoint ρ) ∧
    Octagon.domain.Built (fun c => c.IsValid ∧ Octagon.KeepsReals c) octagon.value ∧
      Managed.Fails .start (AbstractValue.changeEnvironment Octagon.domain octagon ⟨[], []⟩ false)
        (· = .constrainedVariable "x") ∧
      ∀ ρ, ¬ octagon.Has Octagon.HasPoint ρ := by
  have failed : (AbstractValue.changeEnvironment Octagon.domain ⟨0, ⟨[], ["x"]⟩, Octagon.beyond⟩
      ⟨[], []⟩ false).result .start = .error (.constrainedVariable "x") := by
    with_unfolding_all rfl
  intro line box octagon D
  refine ⟨⟨?_, ⟨_, rfl, rfl⟩, fun ρ has => ?_⟩, ?_, ⟨_, failed, rfl⟩, fun ρ has => ?_⟩
  · exact Domain.built_of_any (c := .ofBox ⟨0, 1⟩ [.ofExt .posInf .posInf]) trivial
      (by simp [Construction.operands]) ⟨.meet, .standard, []⟩ (by decide +kernel)
  · obtain ⟨-, within⟩ := Box.hasPoint_iff_inRanges.1 has
    have above : ExtRat.posInf ≤ .fin (ρ "x") := (within 0 _ rfl).1
    exact ExtRat.not_posInf_le_fin above
  · exact Domain.built_of_any (c := .ofBox ⟨0, 1⟩ [.ofExt .posInf .posInf]) ⟨trivial, trivial⟩
      (by simp [Construction.operands]) ⟨.meet, .standard, []⟩ (by decide +kernel)
  · have below : ExtRat.fin _ ≤ .negInf := has.holds 1 0
    exact ExtRat.not_fin_le_negInf below

end Enclosure
