import Enclosure.Proofs.Reachability

/-!
# Folds of values over environments

What an operation of a domain says of the variables by name depends only on what its operands say,
so it makes no difference when they are moved to a larger environment.
-/

namespace Enclosure

open Environment

/-! ### Runs without limits -/

namespace Managed

variable {α β : Type} {m : Manager} {x : Managed α} {f : α → Managed β} {post mid : α → Prop}

def RunsTo (m : Manager) (x : Managed α) (post : α → Prop) : Prop :=
  ∃ a after, x.run m = (.ok a, after) ∧ after.Unlimited ∧ post a

theorem RunsTo.returns (h : RunsTo m x post) : Returns m x post := by
  obtain ⟨a, after, run, -, holds⟩ := h
  exact ⟨a, congrArg Prod.fst run, holds⟩

theorem runsTo_pure {a : α} (unlimited : m.Unlimited) (holds : post a) : RunsTo m (pure a) post :=
  ⟨a, m, rfl, unlimited, holds⟩

theorem runsTo_perform {id : OperationId} {op : Op α} (unlimited : m.Unlimited)
    (h : Op.Returns (m.request id) op post) : RunsTo m (perform id op) post := by
  obtain ⟨a, report, run, holds⟩ := h .start
  refine ⟨a, m.publish report, ?_, unlimited, holds⟩
  change perform id op m = _
  rw [perform, run]

theorem run_bind {a : α} {after : Manager} (run : x.run m = (.ok a, after)) :
    (x >>= f).run m = (f a).run after := by
  change (ExceptT.bindCont f (x.run m).1).run (x.run m).2 = _
  rw [run]
  rfl

theorem RunsTo.bind {post : β → Prop} (h : RunsTo m x mid)
    (next : ∀ a after, after.Unlimited → mid a → RunsTo after (f a) post) :
    RunsTo m (x >>= f) post := by
  obtain ⟨a, after, run, unlimited, holds⟩ := h
  rw [RunsTo, run_bind run]
  exact next a after unlimited holds

theorem RunsTo.bind_error {failure : Failure} (h : RunsTo m x mid)
    (next : ∀ a after, after.Unlimited → mid a → (f a).result after = .error failure) :
    (x >>= f).result m = .error failure := by
  obtain ⟨a, after, run, unlimited, holds⟩ := h
  rw [result, run_bind run]
  exact next a after unlimited holds

end Managed

/-! ### Operations by name -/

variable {V W : Type}

structure Domain.Over (D : Domain V) (formed : V → Prop) (e : Environment) (v : V) : Prop where
  formed : formed v
  space : D.space v = e.space

def Domain.ActsWithin (D : Domain V) (formed : V → Prop) (view : Environment → V → W)
    (op : V → V → Op V) (u : Environment) (g : W → W → W) : Prop :=
  ∀ request e a b, ¬ request.Limited → e.IsValid → e.Within u → D.Over formed e a →
    D.Over formed e b →
    Op.Returns request (op a b) fun r => D.Over formed e r ∧ view e r = g (view e a) (view e b)

def Domain.ActsByName (D : Domain V) (formed : V → Prop) (view : Environment → V → W)
    (op : V → V → Op V) : Prop :=
  ∀ u : Environment, u.IsValid → ∃ g, D.ActsWithin formed view op u g

structure Domain.HasView (D : Domain V) (formed : V → Prop) (γ : V → List Rat → Prop)
    (view : Environment → V → W) : Prop where
  insert : ∀ request e f c v, ¬ request.Limited → e.IsValid → f.IsValid → Embeds c e f →
    D.Over formed e v →
    Op.Returns request (D.addDimensions v c false) fun w =>
      D.Over formed f w ∧ view f w = view e v
  top : ∀ e f, e.IsValid → f.IsValid →
    D.Over formed e (D.top e.space) ∧ view e (D.top e.space) = view f (D.top f.space)
  bottom : ∀ e f, e.IsValid → f.IsValid →
    D.Over formed e (D.bottom e.space) ∧ view e (D.bottom e.space) = view f (D.bottom f.space)
  meet : D.ActsByName formed view D.meet
  join : D.ActsByName formed view D.join
  same : ∀ request e v w, ¬ request.Limited → e.IsValid → D.Over formed e v → D.Over formed e w →
    view e v = view e w →
    (∀ x, γ v x ↔ γ w x) ∧ Op.Returns request (D.isEq v w) (· = true)

theorem Domain.returns_over {D : Domain V} {formed P : V → Prop} {request : Request} {op : Op V}
    {e : Environment} {s : Space} {view : Environment → V → W} {z : W}
    (kept : Op.Returns request op fun w => formed w ∧ D.space w = s ∧ P w) (space : s = e.space)
    (seen : Op.Returns request op fun w => view e w = z) :
    Op.Returns request op fun w => D.Over formed e w ∧ view e w = z :=
  (kept.and seen).mono fun _ h => ⟨⟨h.1.1, h.1.2.1.trans space⟩, h.2⟩

namespace AbstractValue

open Managed

variable {D : Domain V} {formed : V → Prop} {γ : V → List Rat → Prop} {view : Environment → V → W}
  {request : Request} {e f u : Environment} {v w : V} {vs : List (AbstractValue V)}
  {a b : AbstractValue V} {m n : Manager} {op : V → V → Op V} {g : W → W → W} {manager : Nat}
  {failure : Failure} {id all : OperationId} {label : String}

theorem IsFormed.isOver (h : a.IsFormed D formed) : D.Over formed a.env a.value :=
  ⟨h.value, h.space⟩

/-- The computations fail in the same way, or they return values of one manager over one environment
that have the same points and are equal for the domain. -/
def Agree (D : Domain V) (γ : V → List Rat → Prop) (m n : Manager)
    (x y : Managed (AbstractValue V)) : Prop :=
  (∃ failure, x.result m = .error failure ∧ y.result n = .error failure) ∨
    ∃ a b, x.result m = .ok a ∧ y.result n = .ok b ∧ a.manager = b.manager ∧ a.env = b.env ∧
      (∀ ρ, a.Has γ ρ ↔ b.Has γ ρ) ∧
        ∀ k : Manager, k.Unlimited → Returns k (isEq D a b) (· = true)

def combine (D : Domain V) (label : String) (id : OperationId) (op : V → V → Op V)
    (a b : AbstractValue V) : Managed (AbstractValue V) := do
  requireSameManager label a b
  return a.renew (← binary D id op a b)

section

variable (views : D.HasView formed γ view)
include views

theorem returns_embed_view (free : ¬ request.Limited) (he : e.IsValid) (hf : f.IsValid)
    (within : e.Within f) (hv : D.Over formed e v) :
    Op.Returns request (embed D v (proper (e.embedding? f))) fun w =>
      D.Over formed f w ∧ view f w = view e v := by
  rcases embed_cases D v he hf within with ⟨rfl, run⟩ | ⟨c, embeds, run⟩
  · exact run ▸ Op.returns_pure ⟨hv, rfl⟩
  · exact run ▸ views.insert request e f c v free he hf embeds hv

theorem runsTo_binary {α : Type} {op : V → V → Op α} {post : α → Prop} (unlimited : m.Unlimited)
    (ha : a.IsFormed D formed) (hb : b.IsFormed D formed) (union : a.env.union b.env = .ok e)
    (h : ∀ x y, D.Over formed e x → D.Over formed e y → view e x = view a.env a.value →
      view e y = view b.env b.value → Op.Returns (m.request id) (op x y) post) :
    RunsTo m (binary D id op a b) fun r => r.1 = e ∧ post r.2 := by
  have least := (union_eq_ok_iff ha.env hb.env).1 union
  have free := unlimited.not_limited id
  have changes : a.env.unionWithChanges b.env = .ok (e,
      proper (a.env.embedding? e), proper (b.env.embedding? e)) := by
    rw [unionWithChanges, union]
    rfl
  have combined : Op.Ensures (m.request id) False (do
      let x ← embed D a.value (proper (a.env.embedding? e))
      let y ← embed D b.value (proper (b.env.embedding? e))
      op x y) post := by
    refine (returns_embed_view views free ha.env least.valid least.left ha.isOver).ensures.bind
      fun x hx => ?_
    refine (returns_embed_view views free hb.env least.valid least.right hb.isOver).ensures.bind
      fun y hy => ?_
    exact (h x y hx.1 hy.1 hx.2 hy.2).ensures
  rw [binary, changes]
  exact (runsTo_perform unlimited (combined.returns not_false)).bind fun r after left hr =>
    runsTo_pure left ⟨rfl, hr⟩

theorem returns_isEq_of_view (unlimited : m.Unlimited) (ha : a.IsFormed D formed)
    (hb : b.IsFormed D formed) (manager : a.manager = b.manager) (env : a.env = b.env)
    (seen : view a.env a.value = view b.env b.value) :
    (∀ ρ, a.Has γ ρ ↔ b.Has γ ρ) ∧ Returns m (isEq D a b) (· = true) := by
  have free := unlimited.not_limited .isEq
  have union : a.env.union b.env = .ok a.env :=
    (union_eq_ok_iff ha.env hb.env).2 ⟨ha.env, by simp [env], by simp [env]⟩
  constructor
  · intro ρ
    rw [Has, env]
    exact (views.same _ _ _ _ free ha.env ha.isOver (env ▸ hb.isOver) (env ▸ seen)).1 _
  · rw [isEq, requireSameManager, if_pos manager, pure_bind]
    refine (runsTo_binary views unlimited ha hb union fun x y hx hy first second => ?_).bind
      (fun r after left hr => runsTo_pure left hr.2) |>.returns
    exact (views.same _ _ x y free ha.env hx hy (first.trans (seen.trans second.symm))).2

variable (acts : D.ActsWithin formed view op u g)
include acts

theorem returns_foldlM_view (hu : u.IsValid) (free : ¬ request.Limited)
    (hvs : ∀ v ∈ vs, v.IsFormed D formed ∧ v.env.Within u) (hw : D.Over formed u w) :
    Op.Returns request (vs.foldlM (fun acc v => do
      op acc (← embed D v.value (proper (v.env.embedding? u)))) w) fun r =>
        D.Over formed u r ∧
          view u r = vs.foldl (fun s v => g s (view v.env v.value)) (view u w) := by
  induction vs generalizing w with
  | nil => exact Op.returns_pure ⟨hw, rfl⟩
  | cons v vs ih =>
    obtain ⟨⟨hv, within⟩, others⟩ := List.forall_mem_cons.1 hvs
    have step : Op.Ensures request False (do
        op w (← embed D v.value (proper (v.env.embedding? u)))) fun r => D.Over formed u r ∧
          view u r = g (view u w) (view v.env v.value) := by
      refine (returns_embed_view views free hv.env hu within hv.isOver).ensures.bind fun x hx => ?_
      exact hx.2 ▸ (acts request u w x free hu (.refl u) hw hx.1).ensures
    rw [List.foldl_cons]
    refine (step.bind fun r hr => ?_).returns not_false
    exact hr.2 ▸ (ih others hr.1).ensures

theorem runsTo_combine (unlimited : m.Unlimited) (ha : a.IsFormed D formed)
    (hb : b.IsFormed D formed) (same : a.manager = b.manager) (union : a.env.union b.env = .ok e)
    (within : e.Within u) :
    RunsTo m (combine D label id op a b) fun r => r.manager = a.manager ∧ r.env = e ∧
      r.IsFormed D formed ∧ view e r.value = g (view a.env a.value) (view b.env b.value) := by
  have valid := ((union_eq_ok_iff ha.env hb.env).1 union).valid
  have ran : RunsTo m (binary D id op a b) fun r => r.1 = e ∧ D.Over formed e r.2 ∧
      view e r.2 = g (view a.env a.value) (view b.env b.value) :=
    runsTo_binary views unlimited ha hb union fun x y hx hy first second =>
      first ▸ second ▸ acts _ e x y (unlimited.not_limited id) valid within hx hy
  rw [combine, requireSameManager, if_pos same]
  refine ran.bind fun r after left hr => ?_
  obtain ⟨rfl, moved, seen⟩ := hr
  exact runsTo_pure left ⟨rfl, rfl, ⟨valid, moved.formed, moved.space⟩, seen⟩

theorem runsTo_foldlM_combine (unlimited : m.Unlimited) (ha : a.IsFormed D formed)
    (hvs : ∀ v ∈ vs, v.IsFormed D formed ∧ v.manager = a.manager)
    (common : commonEnvironment all a.manager a.env vs = .ok u) :
    RunsTo m (vs.foldlM (combine D label id op) a) fun r => r.manager = a.manager ∧ r.env = u ∧
      r.IsFormed D formed ∧
        view u r.value = vs.foldl (fun s v => g s (view v.env v.value)) (view a.env a.value) := by
  induction vs generalizing a m with
  | nil =>
    cases common
    exact runsTo_pure unlimited ⟨rfl, rfl, ha, rfl⟩
  | cons v vs ih =>
    obtain ⟨⟨hv, same⟩, others⟩ := List.forall_mem_cons.1 hvs
    rw [commonEnvironment, if_neg (not_not.2 same)] at common
    obtain ⟨e, union, rest⟩ := exists_ok_of_bind common
    have least := (union_eq_ok_iff ha.env hv.env).1 union
    have within := (common_of_ok least.valid (fun v mem => (others v mem).1.env) rest).2.1
    rw [List.foldl_cons]
    refine (runsTo_combine views acts unlimited ha hv same.symm union within).bind
      fun r after left hr => ?_
    obtain ⟨manager, rfl, formed, seen⟩ := hr
    rw [← seen, ← manager]
    exact ih left formed (manager ▸ others) (manager ▸ rest)

omit acts in
theorem result_foldlM_combine_error (acts : D.ActsByName formed view op) (unlimited : m.Unlimited)
    (ha : a.IsFormed D formed) (hvs : ∀ v ∈ vs, v.IsFormed D formed ∧ v.manager = a.manager)
    (common : commonEnvironment all a.manager a.env vs = .error failure) :
    (vs.foldlM (combine D label id op) a).result m = .error failure := by
  induction vs generalizing a m with
  | nil => cases common
  | cons v vs ih =>
    obtain ⟨⟨hv, same⟩, others⟩ := List.forall_mem_cons.1 hvs
    rw [commonEnvironment, if_neg (not_not.2 same)] at common
    cases union : a.env.union v.env with
    | error clash =>
      rw [union] at common
      cases common
      refine result_bind_of_error ?_
      rw [combine, requireSameManager, if_pos same.symm, binary, unionWithChanges, union]
      rfl
    | ok e =>
      rw [union] at common
      have least := (union_eq_ok_iff ha.env hv.env).1 union
      obtain ⟨g, acts⟩ := acts e least.valid
      refine (runsTo_combine views acts unlimited ha hv same.symm union (.refl e)).bind_error
        fun r after left hr => ?_
      obtain ⟨manager, rfl, formed, -⟩ := hr
      exact ih left formed (manager ▸ others) (manager ▸ common)

omit acts in
theorem agree_combineAll {unit : Space → V} {start : Managed (AbstractValue V)}
    (acts : D.ActsByName formed view op)
    (units : ∀ e f, e.IsValid → f.IsValid →
      D.Over formed e (unit e.space) ∧ view e (unit e.space) = view f (unit f.space))
    (begins : ∀ n : Manager, n.Unlimited → RunsTo n start (· = ⟨manager, e, unit e.space⟩))
    (he : e.IsValid) (hvs : ∀ v ∈ vs, v.IsFormed D formed ∧ v.manager = manager)
    (hm : m.Unlimited) (hn : n.Unlimited) :
    Agree D γ m n (combineAll D all unit op manager e vs)
      (start >>= fun a => vs.foldlM (combine D label id op) a) := by
  have first : IsFormed D formed ⟨manager, e, unit e.space⟩ :=
    ⟨he, (units e e he he).1.formed, (units e e he he).1.space⟩
  cases common : commonEnvironment all manager e vs with
  | error failure =>
    refine .inl ⟨failure, ?_, (begins n hn).bind_error fun a after left same => ?_⟩
    · rw [combineAll, common]
      rfl
    · subst same
      exact result_foldlM_combine_error views acts left first hvs common
  | ok u =>
    obtain ⟨hu, -, within⟩ := common_of_ok he (fun v mem => (hvs v mem).1.env) common
    obtain ⟨g, acts⟩ := acts u hu
    have once : Returns m (combineAll D all unit op manager e vs) fun r => r.manager = manager ∧
        r.env = u ∧ r.IsFormed D formed ∧
          view u r.value = vs.foldl (fun s v => g s (view v.env v.value)) (view u (unit u.space)) := by
      rw [combineAll, common]
      have fold := returns_foldlM_view views acts hu (hm.not_limited all)
        (fun v mem => ⟨(hvs v mem).1, within v mem⟩) (units u u hu hu).1
      refine (returns_perform fold).bind fun r after hr => ?_
      exact returns_pure ⟨rfl, rfl, ⟨hu, hr.1.formed, hr.1.space⟩, hr.2⟩
    have each : RunsTo n (start >>= fun a => vs.foldlM (combine D label id op) a) fun r =>
        r.manager = manager ∧ r.env = u ∧ r.IsFormed D formed ∧
          view u r.value = vs.foldl (fun s v => g s (view v.env v.value)) (view e (unit e.space)) :=
      (begins n hn).bind fun a after left same => by
        subst same
        exact runsTo_foldlM_combine views acts left first hvs common
    obtain ⟨a, run, manager, rfl, ha, seen⟩ := once
    obtain ⟨b, run', manager', env, hb, seen'⟩ := each.returns
    have same : view a.env a.value = view b.env b.value := by
      rw [env, seen, seen', (units a.env e ha.env he).2]
    have compared {k : Manager} (hk : k.Unlimited) :=
      returns_isEq_of_view views hk ha hb (manager.trans manager'.symm) env.symm same
    exact .inr ⟨a, b, run, run', manager.trans manager'.symm, env.symm, (compared hm).1,
      fun k hk => (compared hk).2⟩

end

end AbstractValue

end Enclosure
