import Enclosure.Proofs.Renaming

/-!
# Values that are reached over environments

The abstract values that a program meets are what operations return for values that it met before.
-/

namespace Enclosure

open Op Environment

/-! ### What is returned -/

namespace Managed

variable {α β : Type} {x : Managed α} {f : α → Managed β} {post mid : α → Prop}

/-- Every value that the computation ends with has the given property, whatever the manager. -/
def Yields (x : Managed α) (post : α → Prop) : Prop := ∀ m a, x.result m = .ok a → post a

theorem yields_pure {a : α} (holds : post a) : Yields (pure a) post := by
  intro m b run
  cases run
  exact holds

theorem yields_throw (failure : Failure) : Yields (throw failure : Managed α) post := by
  intro m a run
  cases run

theorem yields_attempt {y : Except Failure α} (holds : ∀ a, y = .ok a → post a) :
    Yields (attempt y) post :=
  fun _ => holds

theorem yields_perform {id : OperationId} {op : Op α} (h : Op.Yields op post) :
    Yields (perform id op) post := by
  intro m a run
  change (perform id op m).1 = .ok a at run
  rw [perform] at run
  split at run
  · rename_i b report ran
    cases run
    exact h _ _ _ _ ran
  · cases run

theorem Yields.bind {post : β → Prop} (h : Yields x mid) (next : ∀ a, mid a → Yields (f a) post) :
    Yields (x >>= f) post := by
  intro m b run
  cases result : x.result m with
  | error failure =>
    rw [result_bind_of_error result] at run
    cases run
  | ok a =>
    obtain ⟨after, same⟩ := exists_result_bind result
    exact next a (h m a result) after b (same ▸ run)

theorem yields_bind {post : β → Prop} (next : ∀ a, Yields (f a) post) : Yields (x >>= f) post := by
  have anything : Yields x fun _ => True := fun _ _ _ => trivial
  exact anything.bind fun a _ => next a

theorem yields_foldlM {f : β → α → Managed β} {inv : β → Prop} (xs : List α) (b : β) (start : inv b)
    (step : ∀ b, ∀ x ∈ xs, inv b → Yields (f b x) inv) : Yields (xs.foldlM f b) inv := by
  induction xs generalizing b with
  | nil => exact yields_pure start
  | cons x xs ih =>
    refine (step b x (by simp) start).bind fun c hc => ?_
    exact ih c hc fun d z hz => step d z (by simp [hz])

end Managed

/-! ### Operations -/

variable {V : Type}

namespace AbstractValue

/-- The operations that give abstract values, each with the values that it is applied to. -/
inductive Operation (D : Domain V) : List (AbstractValue V) → Managed (AbstractValue V) → Prop
  | top (manager) {env} : env.IsValid → Operation D [] (top D manager env)
  | bottom (manager) {env} : env.IsValid → Operation D [] (bottom D manager env)
  | ofBox (manager) {env} (bounds) : env.IsValid → Operation D [] (ofBox D manager env bounds)
  | ofLinear (manager) {cs} : cs.env.IsValid → Operation D [] (ofLinear D manager cs)
  | ofTerms (manager) {cs} : cs.env.IsValid → Operation D [] (ofTerms D manager cs)
  | meet (a b) : Operation D [a, b] (meet D a b)
  | join (a b) : Operation D [a, b] (join D a b)
  | widening (a b) : Operation D [a, b] (widening D a b)
  | wideningThreshold (a b) {cs} : cs.env.IsValid → Operation D [a, b] (wideningThreshold D a b cs)
  | meetLinear (a) {cs} : cs.env.IsValid → Operation D [a] (meetLinear D a cs)
  | meetTerms (a) {cs} : cs.env.IsValid → Operation D [a] (meetTerms D a cs)
  | meetAll (manager) {env} (vs) : env.IsValid → Operation D vs (meetAll D manager env vs)
  | joinAll (manager) {env} (vs) : env.IsValid → Operation D vs (joinAll D manager env vs)
  | meetEach (manager) {env} (vs) : env.IsValid → Operation D vs (meetEach D manager env vs)
  | joinEach (manager) {env} (vs) : env.IsValid → Operation D vs (joinEach D manager env vs)
  | assignForms (a vars) {es} : (∀ e ∈ es, e.env.IsValid) → Operation D [a] (assignForms D a vars es)
  | assignTerms (a vars) {es} : (∀ e ∈ es, e.env.IsValid) → Operation D [a] (assignTerms D a vars es)
  | substituteForms (a vars) {es} :
      (∀ e ∈ es, e.env.IsValid) → Operation D [a] (substituteForms D a vars es)
  | substituteTerms (a vars) {es} :
      (∀ e ∈ es, e.env.IsValid) → Operation D [a] (substituteTerms D a vars es)
  | forget (a vars project) : Operation D [a] (forget D a vars project)
  | changeEnvironment (a) {env} (project) :
      env.IsValid → Operation D [a] (changeEnvironment D a env project)
  | rename (a old new) : Operation D [a] (rename D a old new)
  | minimizeEnvironment (a) : Operation D [a] (minimizeEnvironment D a)

/-- The values that sequences of operations reach, with any managers. -/
inductive Reachable (D : Domain V) : AbstractValue V → Prop
  | step {vs : List (AbstractValue V)} {op : Managed (AbstractValue V)} {m : Manager}
      {v : AbstractValue V} (operation : Operation D vs op) (operands : ∀ u ∈ vs, Reachable D u)
      (run : op.result m = .ok v) : Reachable D v

end AbstractValue

structure Domain.KeepsOver (D : Domain V) (inv : Environment → V → Prop) : Prop where
  top : ∀ e, inv e (D.top e.space)
  bottom : ∀ e, inv e (D.bottom e.space)
  ofBox : ∀ e is, Yields (D.ofBox e.space is) (inv e)
  meet : ∀ e a b, inv e a → inv e b → Yields (D.meet a b) (inv e)
  join : ∀ e a b, inv e a → inv e b → Yields (D.join a b) (inv e)
  widening : ∀ e a b, inv e a → inv e b → Yields (D.widening a b) (inv e)
  meetLinear : ∀ e v cs, inv e v → Yields (D.meetLinear v cs) (inv e)
  forget : ∀ e v dims project, inv e v → Yields (D.forget v dims project) (inv e)
  assignForms : ∀ e v dims forms, inv e v → Yields (D.assignForms v dims forms) (inv e)
  assignTerms : ∀ e v dims ts, inv e v → Yields (D.assignTerms v dims ts) (inv e)
  substituteForms : ∀ e v dims forms, inv e v → Yields (D.substituteForms v dims forms) (inv e)
  insert : ∀ e f c v, e.IsValid → f.IsValid → e.Within f → Embeds c e f → inv e v →
    Yields (D.addDimensions v c false) (inv f)
  remove : ∀ e f v, e.IsValid → f.IsValid → f.Within e → inv e v →
    Yields (D.removeDimensions v (e.removal f)) (inv f)
  rename : ∀ r e f p v, e.IsValid → Renames r e f p → inv e v →
    Yields (D.permuteDimensions v p) (inv f)

namespace AbstractValue

open Managed

variable {D : Domain V} {inv : Environment → V → Prop} {a b v : AbstractValue V}
  {vs : List (AbstractValue V)} {e f u : Environment} {x : V} {α : Type} {id : OperationId}

/-- The value has the invariant of its environment. -/
structure Holds (inv : Environment → V → Prop) (a : AbstractValue V) : Prop where
  env : a.env.IsValid
  value : inv a.env a.value

/-! ### Common environments -/

theorem yields_union (he : e.IsValid) (hf : f.IsValid) :
    Managed.Yields (attempt (e.union f)) (IsUnion e f) :=
  yields_attempt fun _ ok => (union_eq_ok_iff he hf).1 ok

theorem yields_unionWithChanges (he : e.IsValid) (hf : f.IsValid) :
    Managed.Yields (attempt (e.unionWithChanges f)) fun r => ∃ u, IsUnion e f u ∧
      r = (u, proper (e.embedding? u), proper (f.embedding? u)) := by
  refine yields_attempt fun r ok => ?_
  obtain ⟨u, union, ok⟩ := exists_ok_of_bind ok
  cases ok
  exact ⟨u, (union_eq_ok_iff he hf).1 union, rfl⟩

theorem united_of_ok {es : List (Scoped α)} (he : e.IsValid) (hes : ∀ x ∈ es, x.env.IsValid)
    (ok : es.foldlM (fun env x => env.union x.env) e = .ok u) : u.IsValid ∧ e.Within u := by
  induction es generalizing e with
  | nil =>
    cases ok
    exact ⟨he, .refl _⟩
  | cons x es ih =>
    rw [List.forall_mem_cons] at hes
    obtain ⟨f, union, ok⟩ := exists_ok_of_bind ok
    have union := (union_eq_ok_iff he hes.1).1 union
    have rest := ih union.valid hes.2 ok
    exact ⟨rest.1, union.left.trans rest.2⟩

theorem common_of_ok {manager : Nat} (he : e.IsValid)
    (hvs : ∀ v ∈ vs, v.env.IsValid) (ok : commonEnvironment id manager e vs = .ok u) :
    u.IsValid ∧ e.Within u ∧ ∀ v ∈ vs, v.env.Within u := by
  induction vs generalizing e with
  | nil =>
    cases ok
    exact ⟨he, .refl _, by simp⟩
  | cons v vs ih =>
    rw [List.forall_mem_cons] at hvs
    rw [commonEnvironment] at ok
    split at ok
    · cases ok
    · obtain ⟨f, union, ok⟩ := exists_ok_of_bind ok
      have union := (union_eq_ok_iff he hvs.1).1 union
      obtain ⟨valid, within, others⟩ := ih union.valid hvs.2 ok
      exact ⟨valid, union.left.trans within,
        List.forall_mem_cons.2 ⟨union.right.trans within, others⟩⟩

/-! ### Steps -/

variable (keeps : D.KeepsOver inv)
include keeps

theorem yields_meetTerms (h : inv e x) (cs : List TermConstraint) :
    Yields (D.meetTerms x cs) (inv e) := by
  refine yields_bind fun bounds => yields_bind fun linear => ?_
  exact yields_markInexactIf (keeps.meetLinear e x linear h)

theorem yields_embed (he : e.IsValid) (hf : f.IsValid) (within : e.Within f) (h : inv e x) :
    Yields (embed D x (proper (e.embedding? f))) (inv f) := by
  rcases embed_cases D x he hf within with ⟨rfl, run⟩ | ⟨c, embeds, run⟩
  · exact run ▸ yields_pure h
  · exact run ▸ keeps.insert e f c x he hf within embeds h

theorem yields_binary {op : V → V → Op V} (ha : Holds inv a) (hb : Holds inv b)
    (h : ∀ e x y, inv e x → inv e y → Op.Yields (op x y) (inv e)) :
    Managed.Yields (binary D id op a b) fun r => Holds inv (a.renew r) := by
  refine (yields_unionWithChanges ha.env hb.env).bind ?_
  rintro _ ⟨u, union, rfl⟩
  refine (yields_perform (?_ : Op.Yields _ (inv u))).bind fun w hw => yields_pure ⟨union.valid, hw⟩
  refine (yields_embed keeps ha.env union.valid union.left ha.value).bind fun x hx => ?_
  exact (yields_embed keeps hb.env union.valid union.right hb.value).bind fun y hy => h u x y hx hy

theorem yields_withScoped {β : Type} [Dimensional β] {op : V → β → Op V}
    {y : Scoped β} (ha : Holds inv a) (hy : y.env.IsValid)
    (h : ∀ e x y, inv e x → Op.Yields (op x y) (inv e)) :
    Managed.Yields (withScoped D id op a y) fun r => Holds inv (a.renew r) := by
  refine (yields_unionWithChanges ha.env hy).bind ?_
  rintro _ ⟨u, union, rfl⟩
  refine yields_bind fun moved => ?_
  refine (yields_perform (?_ : Op.Yields _ (inv u))).bind fun w hw => yields_pure ⟨union.valid, hw⟩
  exact (yields_embed keeps ha.env union.valid union.left ha.value).bind fun x hx => h u x _ hx

theorem yields_meet (ha : Holds inv a) (hb : Holds inv b) :
    Managed.Yields (meet D a b) (Holds inv) :=
  yields_bind fun _ => (yields_binary keeps ha hb keeps.meet).bind fun _ h => yields_pure h

theorem yields_join (ha : Holds inv a) (hb : Holds inv b) :
    Managed.Yields (join D a b) (Holds inv) :=
  yields_bind fun _ => (yields_binary keeps ha hb keeps.join).bind fun _ h => yields_pure h

theorem yields_wideningThreshold {cs : Scoped (List LinearConstraint)} (ha : Holds inv a)
    (hb : Holds inv b) (hc : cs.env.IsValid) :
    Managed.Yields (wideningThreshold D a b cs) (Holds inv) := by
  refine yields_bind fun _ => ?_
  refine (yields_union ha.env hb.env).bind fun both union => ?_
  refine (yields_union union.valid hc).bind fun u larger => ?_
  refine yields_bind fun moved => ?_
  refine (yields_perform (?_ : Op.Yields _ (inv u))).bind fun w hw => yields_pure ⟨larger.valid, hw⟩
  refine (yields_embed keeps ha.env larger.valid (union.left.trans larger.left) ha.value).bind
    fun x hx => ?_
  refine (yields_embed keeps hb.env larger.valid (union.right.trans larger.left) hb.value).bind
    fun y hy => ?_
  refine (keeps.widening u x y hx hy).bind fun w hw => ?_
  exact Op.yields_bind fun kept => keeps.meetLinear u w kept hw

theorem yields_combineAll {unit : Space → V} {op : V → V → Op V} {manager : Nat}
    (he : e.IsValid) (start : ∀ e, inv e (unit e.space))
    (h : ∀ e x y, inv e x → inv e y → Yields (op x y) (inv e)) (hvs : ∀ v ∈ vs, Holds inv v) :
    Managed.Yields (combineAll D id unit op manager e vs) (Holds inv) := by
  refine (yields_attempt fun u ok => common_of_ok he (fun v mem => (hvs v mem).env) ok).bind
    fun u common => ?_
  refine (yields_perform (?_ : Op.Yields _ (inv u))).bind fun w hw => yields_pure ⟨common.1, hw⟩
  refine Op.yields_foldlM vs _ (start u) fun x v mem hx => ?_
  exact (yields_embed keeps (hvs v mem).env common.1 (common.2.2 v mem) (hvs v mem).value).bind
    fun y hy => h u x y hx hy

theorem yields_transfer {α : Type} [Dimensional α]
    {op : V → List Nat → List α → Op V} {vars : List String} {es : List (Scoped α)}
    (ha : Holds inv a) (hes : ∀ e ∈ es, e.env.IsValid)
    (h : ∀ e x dims ts, inv e x → Op.Yields (op x dims ts) (inv e)) :
    Managed.Yields (transfer D id op a vars es) (Holds inv) := by
  unfold transfer
  split
  · exact yields_throw _
  · refine (yields_attempt fun u ok => united_of_ok ha.env hes ok).bind fun u united => ?_
    refine yields_bind fun dims => yields_bind fun moved => ?_
    refine (yields_perform (?_ : Op.Yields _ (inv u))).bind fun w hw => yields_pure ⟨united.1, hw⟩
    exact (yields_embed keeps ha.env united.1 united.2 ha.value).bind fun x hx => h u x _ _ hx

theorem yields_changeEnvironment {project : Bool} (ha : Holds inv a) (he : e.IsValid) :
    Managed.Yields (changeEnvironment D a e project) (Holds inv) := by
  have changes : Managed.Yields (attempt (a.env.transfer e)) fun change =>
      ∃ u, IsUnion a.env e u ∧ change = ⟨proper (a.env.embedding? u),
        proper (some (u.removal e))⟩ := by
    refine yields_attempt fun change ok => ?_
    obtain ⟨u, union, ok⟩ := exists_ok_of_bind ok
    cases ok
    exact ⟨u, (union_eq_ok_iff ha.env he).1 union, rfl⟩
  refine changes.bind ?_
  rintro _ ⟨u, union, rfl⟩
  refine yields_bind fun _ => ?_
  refine (yields_perform (?_ : Op.Yields _ fun r => ∀ v, r = .ok v → inv e v)).bind fun r hr => ?_
  · refine (yields_embed keeps ha.env union.valid union.left ha.value).bind fun x hx => ?_
    cases remove : proper (some (u.removal e)) with
    | none =>
      refine Op.yields_pure fun v same => ?_
      cases same
      have none : (u.removal e).isEmpty = true := by
        simpa [proper] using remove
      exact union.right.eq_of_isEmpty_removal union.valid he none ▸ hx
    | some c =>
      obtain rfl := eq_of_proper remove
      refine Op.yields_bind fun constrained => ?_
      cases constrained with
      | some d => exact Op.yields_pure (by simp)
      | none =>
        refine (keeps.remove u e x union.valid he union.right hx).bind fun w hw => ?_
        refine Op.yields_pure fun v same => ?_
        cases same
        exact hw
  · cases r with
    | ok v => exact yields_pure ⟨he, hr v rfl⟩
    | error d => exact yields_throw _

theorem yields_rename {old new : List String} (ha : Holds inv a) :
    Managed.Yields (rename D a old new) (Holds inv) := by
  refine (yields_attempt fun r ok => ?_ : Managed.Yields _ fun r : Environment × Permutation =>
    Renames (renamed old new) a.env r.1 r.2).bind fun r renames => ?_
  · exact ((rename_eq_ok_iff_renames ha.env).1 ok).2.2
  · refine (yields_perform (keeps.rename _ a.env r.1 r.2 a.value ha.env renames ha.value)).bind
      fun w hw => yields_pure ⟨renames.valid, hw⟩

theorem yields_minimizeEnvironment (ha : Holds inv a) :
    Managed.Yields (minimizeEnvironment D a) (Holds inv) := by
  refine (yields_perform (?_ : Op.Yields _ fun r : Environment × V =>
    Holds inv (a.renew r))).bind fun r hr => yields_pure hr
  refine Op.yields_bind fun free => ?_
  split
  · exact yields_pure ha
  · refine yields_bind fun bottom => ?_
    split
    · exact yields_pure ha
    · obtain ⟨e, removed, he, within, -⟩ := remove_dims_spec ha.env free
      rw [removed]
      exact (keeps.remove a.env e a.value ha.env he within ha.value).bind fun w hw =>
        yields_pure ⟨he, hw⟩

theorem yields_operation {op : Managed (AbstractValue V)} (operation : Operation D vs op)
    (hvs : ∀ v ∈ vs, Holds inv v) : Managed.Yields op (Holds inv) := by
  have one {a : AbstractValue V} (only : ∀ v ∈ [a], Holds inv v) : Holds inv a := only a (by simp)
  have both {a b : AbstractValue V} (pair : ∀ v ∈ [a, b], Holds inv v) :
      Holds inv a ∧ Holds inv b := by simpa using pair
  cases operation with
  | @top manager env valid =>
    exact (yields_perform (yields_pure (keeps.top env))).bind fun _ h => yields_pure ⟨valid, h⟩
  | @bottom manager env valid =>
    exact (yields_perform (yields_pure (keeps.bottom env))).bind fun _ h =>
      yields_pure ⟨valid, h⟩
  | @ofBox manager env bounds valid =>
    exact yields_bind fun is => (yields_perform (keeps.ofBox env is)).bind fun _ h =>
      yields_pure ⟨valid, h⟩
  | @ofLinear manager cs valid =>
    exact (yields_perform (keeps.meetLinear _ _ cs.item (keeps.top cs.env))).bind fun _ h =>
      yields_pure ⟨valid, h⟩
  | @ofTerms manager cs valid =>
    exact (yields_perform (yields_meetTerms keeps (keeps.top cs.env) cs.item)).bind fun _ h =>
      yields_pure ⟨valid, h⟩
  | meet a b => exact yields_meet keeps (both hvs).1 (both hvs).2
  | join a b => exact yields_join keeps (both hvs).1 (both hvs).2
  | widening a b =>
    exact yields_bind fun _ =>
      (yields_binary keeps (both hvs).1 (both hvs).2 keeps.widening).bind fun _ h => yields_pure h
  | wideningThreshold a b valid =>
    exact yields_wideningThreshold keeps (both hvs).1 (both hvs).2 valid
  | meetLinear a valid =>
    exact (yields_withScoped keeps (one hvs) valid keeps.meetLinear).bind fun _ h => yields_pure h
  | meetTerms a valid =>
    exact (yields_withScoped keeps (one hvs) valid fun e x cs h =>
      yields_meetTerms keeps h cs).bind fun _ h => yields_pure h
  | meetAll manager _ valid => exact yields_combineAll keeps valid keeps.top keeps.meet hvs
  | joinAll manager _ valid => exact yields_combineAll keeps valid keeps.bottom keeps.join hvs
  | @meetEach manager env _ valid =>
    refine ((yields_perform (yields_pure (keeps.top env))).bind fun _ h =>
      yields_pure (⟨valid, h⟩ : Holds inv ⟨manager, env, _⟩)).bind fun start h => ?_
    exact yields_foldlM vs start h fun a b mem ha => yields_meet keeps ha (hvs b mem)
  | @joinEach manager env _ valid =>
    refine ((yields_perform (yields_pure (keeps.bottom env))).bind fun _ h =>
      yields_pure (⟨valid, h⟩ : Holds inv ⟨manager, env, _⟩)).bind fun start h => ?_
    exact yields_foldlM vs start h fun a b mem ha => yields_join keeps ha (hvs b mem)
  | assignForms a vars valid => exact yields_transfer keeps (one hvs) valid keeps.assignForms
  | assignTerms a vars valid => exact yields_transfer keeps (one hvs) valid keeps.assignTerms
  | substituteForms a vars valid =>
    exact yields_transfer keeps (one hvs) valid keeps.substituteForms
  | substituteTerms a vars valid =>
    exact yields_transfer keeps (one hvs) valid fun e x dims ts h =>
      yields_bind fun forms => keeps.substituteForms e x dims forms h
  | forget a vars project =>
    refine yields_bind fun dims => ?_
    exact (yields_perform (keeps.forget a.env a.value _ project (one hvs).value)).bind fun _ h =>
      yields_pure ⟨(one hvs).env, h⟩
  | changeEnvironment a project valid => exact yields_changeEnvironment keeps (one hvs) valid
  | rename a old new => exact yields_rename keeps (one hvs)
  | minimizeEnvironment a => exact yields_minimizeEnvironment keeps (one hvs)

theorem Reachable.holds (reachable : Reachable D v) : Holds inv v := by
  induction reachable with
  | step operation _ run ih => exact yields_operation keeps operation ih _ _ run

end AbstractValue

end Enclosure
