import Enclosure.AbstractValue
import Enclosure.Proofs.Constructions
import Enclosure.Proofs.EnvironmentLattice
import Enclosure.Proofs.Transfers

/-!
# Running with a manager

A computation with a manager ends with a value or a failure.
-/

namespace Enclosure

def Manager.Unlimited (m : Manager) : Prop := ∀ id, (m.options id).maxObjectSize = 0

theorem Manager.Unlimited.not_limited {m : Manager} (h : m.Unlimited) (id : OperationId) :
    ¬ (m.request id).Limited := by
  simp [Request.Limited, request, h id]

namespace Managed

variable {α β : Type} {m : Manager} {x : Managed α} {f : α → Managed β} {post mid : α → Prop}
  {bad : Failure → Prop} {failure : Failure}

def result (x : Managed α) (m : Manager) : Except Failure α := (x.run m).1

def Returns (m : Manager) (x : Managed α) (post : α → Prop) : Prop :=
  ∃ a, x.result m = .ok a ∧ post a

def Fails (m : Manager) (x : Managed α) (post : Failure → Prop) : Prop :=
  ∃ failure, x.result m = .error failure ∧ post failure

/-! ### Sequences -/

theorem exists_result_bind {a : α} (ok : x.result m = .ok a) :
    ∃ after, (x >>= f).result m = (f a).result after := by
  refine ⟨(x.run m).2, ?_⟩
  have run : x.run m = (.ok a, (x.run m).2) := Prod.ext ok rfl
  change ((ExceptT.bindCont f (x.run m).1).run (x.run m).2).1 = _
  rw [run]
  rfl

theorem result_bind_of_error (error : x.result m = .error failure) :
    (x >>= f).result m = .error failure := by
  have run : x.run m = (.error failure, (x.run m).2) := Prod.ext error rfl
  change ((ExceptT.bindCont f (x.run m).1).run (x.run m).2).1 = _
  rw [run]
  rfl

theorem returns_pure {a : α} (holds : post a) : Returns m (pure a) post := ⟨a, rfl, holds⟩

theorem Returns.bind {post : β → Prop} (h : Returns m x mid)
    (next : ∀ a after, mid a → Returns after (f a) post) : Returns m (x >>= f) post := by
  obtain ⟨a, ok, holds⟩ := h
  obtain ⟨after, same⟩ := exists_result_bind ok
  obtain ⟨b, ok', holds'⟩ := next a after holds
  exact ⟨b, same.trans ok', holds'⟩

theorem Returns.bind_cases {post : β → Prop} (h : Returns m x mid)
    (next : ∀ a after, mid a → Returns after (f a) post ∨ Fails after (f a) bad) :
    Returns m (x >>= f) post ∨ Fails m (x >>= f) bad := by
  obtain ⟨a, ok, holds⟩ := h
  obtain ⟨after, same⟩ := exists_result_bind ok
  rw [Returns, Fails, same]
  exact next a after holds

theorem Fails.bind (h : Fails m x bad) : Fails m (x >>= f) bad := by
  obtain ⟨failure, error, holds⟩ := h
  exact ⟨failure, result_bind_of_error error, holds⟩

/-! ### Steps -/

theorem fails_attempt {y : Except Failure α} (error : y = .error failure) (holds : bad failure) :
    Fails m (attempt y) bad :=
  ⟨failure, error, holds⟩

theorem returns_perform {id : OperationId} {op : Op α} {Q : α → Prop}
    (h : Op.Returns (m.request id) op Q) : Returns m (perform id op) Q := by
  obtain ⟨a, _, run, holds⟩ := h .start
  refine ⟨a, ?_, holds⟩
  change (perform id op m).1 = _
  rw [perform, run]

end Managed

open Environment in
theorem AbstractValue.embed_cases {V : Type} (D : Domain V) (v : V) {e f : Environment}
    (he : e.IsValid) (hf : f.IsValid) (within : e.Within f) :
    (e = f ∧ embed D v (proper (e.embedding? f)) = pure v) ∨
      ∃ c, Embeds c e f ∧
        embed D v (proper (e.embedding? f)) = D.addDimensions v c false := by
  obtain ⟨c, found, embeds⟩ := embedding?_spec he hf within
  rw [found, proper, Option.filter_some]
  by_cases none : c.isEmpty = true
  · refine .inl ⟨Within.eq_of_vars hf he hf within (.refl f) fun v => ⟨fun old => within.vars old,
      fun mem => by_contra fun new => ?_⟩, by rw [none]; rfl⟩
    obtain ⟨j, place⟩ := List.getElem?_of_mem mem
    have added := (embeds.mem_added_iff hf).2 ⟨v, place, new⟩
    simp [SpaceChange.added, List.isEmpty_iff.1 none] at added
  · exact .inr ⟨c, embeds, by rw [if_pos (by simpa using none)]; rfl⟩

end Enclosure
