import Enclosure.Proofs.Assignment
import Enclosure.Proofs.Running

/-!
# Values that operations build

The values of a domain are those that its operations return, starting from whole spaces, from no
point and from boxes.
-/

namespace Enclosure

open List Op

/-! ### What is returned -/

theorem exists_ok_of_bind {α β : Type} {x : Except Failure α} {f : α → Except Failure β}
    {result : β} (run : x >>= f = .ok result) : ∃ a, x = .ok a ∧ f a = .ok result := by
  cases x with
  | error e => cases run
  | ok a => exact ⟨a, rfl, run⟩

namespace Op

variable {α β : Type} {request : Request} {risk : Prop} {op : Op α} {post mid : α → Prop} {a : α}
  {x : Except Failure α} {f : α → Op β} {p : α → Op Bool}

/-- Every value that the operation returns has the postcondition. -/
def Yields (op : Op α) (post : α → Prop) : Prop :=
  ∀ request before a after, op.run request before = .ok (a, after) → post a

theorem Yields.mono {weaker : α → Prop} (h : Yields op post) (imp : ∀ a, post a → weaker a) :
    Yields op weaker :=
  fun request before a after run => imp a (h request before a after run)

theorem Yields.and (h : Yields op post) (h' : Yields op mid) : Yields op fun a => post a ∧ mid a :=
  fun request before a after run => ⟨h request before a after run, h' request before a after run⟩

theorem Yields.of_any [DecidableEq α] (h : Yields op post)
    (found : (op.run request .start).toOption.any (fun r => decide (r.1 = a)) = true) : post a := by
  obtain ⟨b, after, run, same⟩ := exists_run_of_any (p := fun b => decide (b = a)) found
  exact of_decide_eq_true same ▸ h request .start b after run

theorem yields_pure (holds : post a) : Yields (pure a : Op α) post := by
  intro request before b after run
  cases run
  exact holds

theorem yields_fail (f : Failure) : Yields (fail f) post := by
  intro request before a after run
  cases run

theorem yields_ofExcept (holds : ∀ a, x = .ok a → post a) : Yields (ofExcept x) post := by
  intro request before a after run
  cases x with
  | error f => cases run
  | ok b =>
    cases run
    exact holds a rfl

theorem exists_run_of_bind {b : β} {before after : Report}
    (run : (op >>= f).run request before = .ok (b, after)) :
    ∃ a between, op.run request before = .ok (a, between) ∧
      (f a).run request between = .ok (b, after) := by
  obtain ⟨r, first, rest⟩ := exists_ok_of_bind run
  exact ⟨r.1, r.2, first, rest⟩

theorem Yields.bind {post : β → Prop} (h : Yields op mid) (next : ∀ a, mid a → Yields (f a) post) :
    Yields (op >>= f) post := by
  intro request before b after run
  obtain ⟨a, between, first, rest⟩ := exists_run_of_bind run
  exact next a (h request before a between first) request between b after rest

theorem yields_bind {post : β → Prop} (next : ∀ a, Yields (f a) post) : Yields (op >>= f) post := by
  have anything : Yields op fun _ => True := fun _ _ _ _ _ => trivial
  exact anything.bind fun a _ => next a

theorem yields_markInexactIf {p : Prop} [Decidable p] {f : Unit → Op α} (h : Yields (f ()) post) :
    Yields (if p then markInexact >>= f else f ()) post := by
  split
  · exact yields_bind fun _ => h
  · exact h

theorem yields_foldlM {f : β → α → Op β} {inv : β → Prop} (xs : List α) (b : β) (start : inv b)
    (step : ∀ b, ∀ x ∈ xs, inv b → Yields (f b x) inv) : Yields (xs.foldlM f b) inv := by
  induction xs generalizing b with
  | nil => exact yields_pure start
  | cons x xs ih =>
    refine (step b x (by simp) start).bind fun c hc => ?_
    exact ih c hc fun d z hz => step d z (by simp [hz])

private theorem yields_filterAuxM (xs acc : List α) :
    Yields (xs.filterAuxM p acc) fun ys => ∀ y ∈ ys, y ∈ acc ∨ y ∈ xs := by
  induction xs generalizing acc with
  | nil => exact yields_pure fun y mem => .inl mem
  | cons x xs ih =>
    refine yields_bind fun answer => (ih _).mono fun ys kept y mem => ?_
    rcases kept y mem with old | later
    · cases answer with
      | false => exact .inl old
      | true => exact (mem_cons.1 old).elim (fun same => .inr (by simp [same])) .inl
    · exact .inr (mem_cons_of_mem x later)

theorem yields_filterM (xs : List α) : Yields (xs.filterM p) fun ys => ∀ y ∈ ys, y ∈ xs := by
  refine (yields_filterAuxM xs []).bind fun ys kept => yields_pure fun y mem => ?_
  simpa using kept y (by simpa using mem)

def Gives (op : Op α) (a : α) : Prop :=
  ∀ request before, ∃ after, op.run request before = .ok (a, after)

theorem gives_pure (a : α) : Gives (pure a : Op α) a := fun _ before => ⟨before, rfl⟩

theorem gives_ofExcept (ok : x = .ok a) : Gives (ofExcept x) a := by
  subst ok
  exact gives_pure a

theorem gives_readBind {f : Request → Op α} (h : ∀ request, Gives (f request) a) :
    Gives (read >>= f) a :=
  fun request before => h request request before

theorem gives_markInexact : Gives markInexact () := fun _ _ => ⟨_, rfl⟩

theorem Gives.bind {b : β} (h : Gives op a) (next : Gives (f a) b) : Gives (op >>= f) b := by
  intro request before
  obtain ⟨between, run⟩ := h request before
  obtain ⟨after, rest⟩ := next request between
  exact ⟨after, (run_bind run).trans rest⟩

theorem Gives.returns (h : Gives op a) (holds : post a) : Returns request op post := by
  intro before
  obtain ⟨after, run⟩ := h request before
  exact ⟨a, after, run, holds⟩

theorem Gives.returns_iff (h : Gives op a) : Returns request op post ↔ post a := by
  refine ⟨fun returns => ?_, h.returns⟩
  obtain ⟨_, run⟩ := h request .start
  exact returns.of_run run

theorem Gives.yields (h : Gives op a) (holds : post a) : Yields op post := by
  intro request before b after run
  obtain ⟨_, same⟩ := h request before
  rw [same] at run
  cases run
  exact holds

theorem Returns.and (h : Returns request op post) (h' : Returns request op mid) :
    Returns request op fun a => post a ∧ mid a := by
  intro report
  obtain ⟨a, after, run, holds⟩ := h report
  exact ⟨a, after, run, holds, h'.of_run run⟩

theorem Returns.and_yields (h : Returns request op post) (h' : Yields op mid) :
    Returns request op fun a => post a ∧ mid a := by
  intro report
  obtain ⟨a, after, run, holds⟩ := h report
  exact ⟨a, after, run, holds, h' request report a after run⟩

theorem Ensures.and_yields (h : Ensures request risk op post) (h' : Yields op mid) :
    Ensures request risk op fun a => post a ∧ mid a := by
  intro report
  rcases h report with ⟨a, after, run, holds⟩ | aborted
  · exact .inl ⟨a, after, run, holds, h' request report a after run⟩
  · exact .inr aborted

theorem yields_of_ensures {risk : Request → Prop}
    (h : ∀ request, Ensures request (risk request) op post) : Yields op post := by
  intro request before a after run
  rcases h request before with ⟨b, _, same, holds⟩ | ⟨-, _, -, _, aborted⟩
  · rw [same] at run
    cases run
    exact holds
  · rw [aborted] at run
    cases run

end Op

/-! ### Exchanges -/

namespace Permutation

variable {p q : Permutation} {n size a b : Nat} {dims : List Nat}

theorem Valid.self (valid : p.Valid n) : p.Valid p.size := by
  have size : p.size = n := valid.length
  rwa [size]

theorem Valid.of_swap (valid : p.Valid n) (run : p.swap a b = .ok q) :
    a < n ∧ b < n ∧ q.Valid n ∧ q.image a = p.image b ∧ q.image b = p.image a ∧
      ∀ i, i ≠ a → i ≠ b → q.image i = p.image i := by
  have inside {i x : Nat} (found : p.images[i]? = some x) : i < n :=
    valid.length ▸ lt_of_getElem? found
  rw [Permutation.swap] at run
  cases first : p.images[a]? with
  | none =>
    simp only [fetch, first] at run
    cases run
  | some x =>
    cases second : p.images[b]? with
    | none =>
      simp only [fetch, first, second] at run
      cases run
    | some y =>
      obtain ⟨r, swapped, rest⟩ := valid.swap (inside first) (inside second)
      rw [Permutation.swap, run] at swapped
      obtain rfl := Except.ok.inj swapped
      exact ⟨inside first, inside second, rest⟩

structure MovesOut (p : Permutation) (size k n : Nat) : Prop where
  valid : p.Valid n
  image : ∀ i < size, p.image i = i ∨ size ≤ p.image i
  fresh : ∀ j, size + k ≤ j → j < n → size ≤ p.image j

theorem MovesOut.swap {k : Nat} (h : p.MovesOut size k n) (run : p.swap a (size + k) = .ok q) :
    q.MovesOut size (k + 1) n := by
  obtain ⟨_, room, valid, old, -, others⟩ := h.valid.of_swap run
  have free := h.fresh (size + k) le_rfl room
  refine ⟨valid, fun i low => ?_, fun j beyond below => ?_⟩
  · by_cases here : i = a
    · rw [here, old]
      exact .inr free
    · rw [others i here (by omega)]
      exact h.image i low
  · by_cases here : j = a
    · rwa [here, old]
    · rw [others j here (by omega)]
      exact h.fresh j (by omega) below

theorem MovesOut.foldlM_swap {k : Nat} (h : p.MovesOut size k n)
    (run : (dims.zipIdx k).foldlM (fun p e => p.swap e.1 (size + e.2)) p = .ok q) :
    q.MovesOut size (k + dims.length) n := by
  induction dims generalizing k p with
  | nil =>
    cases run
    exact h
  | cons d dims ih =>
    rw [zipIdx_cons, foldlM_cons] at run
    cases first : p.swap d (size + k) with
    | error f =>
      rw [first] at run
      cases run
    | ok r =>
      rw [first] at run
      have rest := ih (h.swap first) run
      rwa [Nat.add_right_comm] at rest

theorem movesOut_of_exchange (run : exchange size dims = .ok p) :
    p.MovesOut size dims.length (size + dims.length) := by
  have start : (identity (size + dims.length)).MovesOut size 0 (size + dims.length) :=
    ⟨valid_identity _, fun i _ => .inl (image_identity _ i), fun j le _ => by rwa [image_identity]⟩
  have steps := start.foldlM_swap run
  rwa [Nat.zero_add] at steps

theorem preimage_of_exchange {d : Nat} (run : exchange size dims = .ok p) (low : d < size) :
    p.preimage d = d ∨ size ≤ p.preimage d := by
  have moved := movesOut_of_exchange run
  have back := moved.valid.image_preimage (Nat.lt_add_right dims.length low)
  by_cases old : p.preimage d < size
  · rcases moved.image _ old with same | out
    · exact .inl (same.symm.trans back)
    · rw [back] at out
      exact absurd low (not_lt.2 out)
  · exact .inr (not_lt.1 old)

end Permutation

/-! ### Constructions -/

/-- An operation that gives a value, with its arguments. -/
inductive Construction (V : Type)
  | top (s : Space)
  | bottom (s : Space)
  | ofBox (s : Space) (is : List Interval)
  | meet (a b : V)
  | meetLinear (v : V) (cs : List LinearConstraint)
  | meetTerms (v : V) (cs : List TermConstraint)
  | join (a b : V)
  | widening (a b : V)
  | wideningThreshold (a b : V) (thresholds : List LinearConstraint)
  | addDimensions (v : V) (c : SpaceChange) (project : Bool)
  | removeDimensions (v : V) (c : SpaceChange)
  | permuteDimensions (v : V) (p : Permutation)
  | forget (v : V) (dims : List Nat) (project : Bool)
  | assignForms (v : V) (dims : List Nat) (forms : List LinearForm)
  | assignTerms (v : V) (dims : List Nat) (ts : List Term)
  | substituteForms (v : V) (dims : List Nat) (forms : List LinearForm)
  | substituteTerms (v : V) (dims : List Nat) (ts : List Term)

namespace Construction

variable {V : Type}

def operands : Construction V → List V
  | top _ => []
  | bottom _ => []
  | ofBox _ _ => []
  | meet a b => [a, b]
  | meetLinear v _ => [v]
  | meetTerms v _ => [v]
  | join a b => [a, b]
  | widening a b => [a, b]
  | wideningThreshold a b _ => [a, b]
  | addDimensions v _ _ => [v]
  | removeDimensions v _ => [v]
  | permuteDimensions v _ => [v]
  | forget v _ _ => [v]
  | assignForms v _ _ => [v]
  | assignTerms v _ _ => [v]
  | substituteForms v _ _ => [v]
  | substituteTerms v _ _ => [v]

def perform (D : Domain V) : Construction V → Op V
  | top s => return D.top s
  | bottom s => return D.bottom s
  | ofBox s is => D.ofBox s is
  | meet a b => D.meet a b
  | meetLinear v cs => D.meetLinear v cs
  | meetTerms v cs => D.meetTerms v cs
  | join a b => D.join a b
  | widening a b => D.widening a b
  | wideningThreshold a b thresholds => D.wideningThreshold a b thresholds
  | addDimensions v c project => D.addDimensions v c project
  | removeDimensions v c => D.removeDimensions v c
  | permuteDimensions v p => D.permuteDimensions v p
  | forget v dims project => D.forget v dims project
  | assignForms v dims forms => D.assignForms v dims forms
  | assignTerms v dims ts => D.assignTerms v dims ts
  | substituteForms v dims forms => D.substituteForms v dims forms
  | substituteTerms v dims ts => D.substituteTerms v dims ts

def IsValid : Construction V → Prop
  | permuteDimensions _ p => p.Valid p.size
  | _ => True

end Construction

variable {V : Type}

/-- The values that can be built: each is what an admitted operation returns for values that can
be built, whatever the operation is asked and reports. -/
inductive Domain.Built (D : Domain V) (admitted : Construction V → Prop) : V → Prop
  | step {c : Construction V} {request : Request} {before after : Report} {v : V}
      (admits : admitted c) (operands : ∀ u ∈ c.operands, D.Built admitted u)
      (run : (c.perform D).run request before = .ok (v, after)) : D.Built admitted v

structure Domain.Keeps (D : Domain V) (admitted : Construction V → Prop) (inv : V → Prop) :
    Prop where
  top : ∀ s, inv (D.top s)
  bottom : ∀ s, inv (D.bottom s)
  ofBox : ∀ s is, admitted (.ofBox s is) → Yields (D.ofBox s is) inv
  meet : ∀ a b, inv a → inv b → Yields (D.meet a b) inv
  meetLinear : ∀ v cs, inv v → Yields (D.meetLinear v cs) inv
  join : ∀ a b, inv a → inv b → Yields (D.join a b) inv
  widening : ∀ a b, inv a → inv b → Yields (D.widening a b) inv
  addDimensions : ∀ v c project, admitted (.addDimensions v c project) → inv v →
    Yields (D.addDimensions v c project) inv
  removeDimensions : ∀ v c, admitted (.removeDimensions v c) → inv v →
    Yields (D.removeDimensions v c) inv
  permuteDimensions : ∀ v p, admitted (.permuteDimensions v p) → inv v →
    Yields (D.permuteDimensions v p) inv
  forget : ∀ v dims project, inv v → Yields (D.forget v dims project) inv
  assignForms : ∀ v dims forms, admitted (.assignForms v dims forms) → inv v →
    Yields (D.assignForms v dims forms) inv
  assignTerms : ∀ v dims ts, admitted (.assignTerms v dims ts) → inv v →
    Yields (D.assignTerms v dims ts) inv
  substituteForms : ∀ v dims forms, inv v → Yields (D.substituteForms v dims forms) inv

section Keeps

variable {D : Domain V} {admitted : Construction V → Prop} {inv : V → Prop} {v : V}
  {c : Construction V}

theorem Domain.Keeps.yields_perform (keeps : D.Keeps admitted inv) (c : Construction V)
    (admits : admitted c) (operands : ∀ u ∈ c.operands, inv u) : Yields (c.perform D) inv := by
  have both {a b : V} (pair : ∀ u ∈ [a, b], inv u) : inv a ∧ inv b := by simpa using pair
  cases c with
  | top s => exact yields_pure (keeps.top s)
  | bottom s => exact yields_pure (keeps.bottom s)
  | ofBox s is => exact keeps.ofBox s is admits
  | meet a b =>
    obtain ⟨left, right⟩ := both operands
    exact keeps.meet a b left right
  | meetLinear v cs => exact keeps.meetLinear v cs (operands v (mem_singleton_self v))
  | meetTerms v cs =>
    have start := operands v (mem_singleton_self v)
    refine yields_bind fun bounds => yields_bind fun linear => ?_
    split
    · exact yields_bind fun _ => keeps.meetLinear v linear start
    · exact keeps.meetLinear v linear start
  | join a b =>
    obtain ⟨left, right⟩ := both operands
    exact keeps.join a b left right
  | widening a b =>
    obtain ⟨left, right⟩ := both operands
    exact keeps.widening a b left right
  | wideningThreshold a b thresholds =>
    obtain ⟨left, right⟩ := both operands
    refine (keeps.widening a b left right).bind fun w start => ?_
    exact yields_bind fun kept => keeps.meetLinear w kept start
  | addDimensions v c project =>
    exact keeps.addDimensions v c project admits (operands v (mem_singleton_self v))
  | removeDimensions v c =>
    exact keeps.removeDimensions v c admits (operands v (mem_singleton_self v))
  | permuteDimensions v p =>
    exact keeps.permuteDimensions v p admits (operands v (mem_singleton_self v))
  | forget v dims project =>
    exact keeps.forget v dims project (operands v (mem_singleton_self v))
  | assignForms v dims forms =>
    exact keeps.assignForms v dims forms admits (operands v (mem_singleton_self v))
  | assignTerms v dims ts =>
    exact keeps.assignTerms v dims ts admits (operands v (mem_singleton_self v))
  | substituteForms v dims forms =>
    exact keeps.substituteForms v dims forms (operands v (mem_singleton_self v))
  | substituteTerms v dims ts =>
    have start := operands v (mem_singleton_self v)
    exact yields_bind fun forms => keeps.substituteForms v dims forms start

theorem Domain.Keeps.of_built (keeps : D.Keeps admitted inv) (built : D.Built admitted v) :
    inv v := by
  induction built with
  | step admits _ run ih => exact keeps.yields_perform _ admits ih _ _ _ _ run

theorem Domain.Keeps.congr {inv' : V → Prop} (keeps : D.Keeps admitted inv)
    (same : ∀ v, inv v ↔ inv' v) : D.Keeps admitted inv' := by
  obtain rfl : inv = inv' := funext fun v => propext (same v)
  exact keeps

theorem Domain.Built.mono {more : Construction V → Prop} (built : D.Built admitted v)
    (imp : ∀ c, admitted c → more c) : D.Built more v := by
  induction built with
  | step admits _ run ih => exact .step (imp _ admits) ih run

theorem Domain.built_top {s : Space} (admits : admitted (.top s)) : D.Built admitted (D.top s) := by
  have run : ((Construction.top s).perform D).run ⟨.top, .standard, []⟩ .start =
      .ok (D.top s, .start) := rfl
  exact .step admits (by simp [Construction.operands]) run

theorem Domain.yields_built (admits : admitted c)
    (operands : ∀ u ∈ c.operands, D.Built admitted u) : Yields (c.perform D) (D.Built admitted) :=
  fun _ _ _ _ run => .step admits operands run

theorem Domain.built_of_any [DecidableEq V] (admits : admitted c)
    (operands : ∀ u ∈ c.operands, D.Built admitted u) (request : Request)
    (found : ((c.perform D).run request .start).toOption.any (fun r => decide (r.1 = v)) = true) :
    D.Built admitted v :=
  (Domain.yields_built admits operands).of_any found

end Keeps

section Fresh

variable {v : V} {dims : List Nat}

theorem DomainCore.yields_assignByFresh {D : DomainCore V} {grows meets drops moves ends : V → Prop}
    (grow : Yields (D.addDimensions v (.append (D.space v).size dims.length) false) grows)
    (meet : ∀ w cs, grows w → Yields (D.meetLinear w cs) meets)
    (drop : ∀ w, meets w → Yields (D.forget w dims false) drops)
    (move : ∀ w p, Permutation.exchange (D.space v).size dims = .ok p → drops w →
      Yields (D.permuteDimensions w p) moves)
    (shrink : ∀ w, moves w →
      Yields (D.removeDimensions w (.dropLast (D.space v).size dims.length)) ends)
    (forms : List LinearForm) : Yields (D.assignByFresh v dims forms) ends := by
  unfold DomainCore.assignByFresh
  split
  · exact yields_fail _
  · refine grow.bind fun grown h => (meet grown _ h).bind fun defined h => ?_
    refine (drop defined h).bind fun forgotten h => ?_
    refine (yields_ofExcept fun p ok => ok).bind fun p ok => ?_
    exact (move forgotten p ok h).bind fun exchanged h => shrink exchanged h

theorem Domain.yields_substituteForms {D : Domain V} {grows moves meets ends : V → Prop}
    (grow : Yields (D.addDimensions v (.append (D.space v).size dims.length) false) grows)
    (move : ∀ w p, Permutation.exchange (D.space v).size dims = .ok p → grows w →
      Yields (D.permuteDimensions w p) moves)
    (meet : ∀ w cs, moves w → Yields (D.meetLinear w cs) meets)
    (shrink : ∀ w, meets w →
      Yields (D.removeDimensions w (.dropLast (D.space v).size dims.length)) ends)
    (forms : List LinearForm) : Yields (D.substituteForms v dims forms) ends := by
  unfold Domain.substituteForms
  split
  · exact yields_fail _
  · refine grow.bind fun grown h => ?_
    refine (yields_ofExcept fun p ok => ok).bind fun p ok => ?_
    refine (move grown p ok h).bind fun exchanged h => ?_
    exact (meet exchanged _ h).bind fun defined h => shrink defined h

end Fresh

end Enclosure
