import Enclosure.Proofs.Terms
import Enclosure.Proofs.Transfers
import Enclosure.Scoped

/-!
# Substitution in terms

A term is evaluated node by node, so evaluating it after a term was put in place of a dimension is
evaluating it over the range of that term.
-/

namespace Enclosure

theorem Interval.both_convert {i : Interval} (uniform : i.hi.kind = i.lo.kind) (k : Kind) :
    (i.convert k).Both (·.kind = k) := by
  unfold convert
  split
  · rename_i same
    exact ⟨same, uniform.trans same⟩
  · split
    · exact ⟨rfl, rfl⟩
    · exact ⟨i.lo.kind_convert k _, i.hi.kind_convert k _⟩

namespace Term

variable {t r : Term} {d : Nat} {bounds others : List Interval} {k : Kind} {g : Nat → Nat}

def rangeOver (bounds : List Interval) (k : Kind) : Term → Interval
  | const c => c.toIntervalOf k
  | dim d => (bounds.getD d (.top k)).convert k
  | unary op f p t => (op.apply (t.rangeOver bounds k)).round f p
  | binary op f p s t => (op.apply (s.rangeOver bounds k) (t.rangeOver bounds k)).round f p

def IsUniform (t : Term) : Prop :=
  t.AllConstants fun c => c.toInterval.hi.kind = c.toInterval.lo.kind

theorem eval_eq (inside : ∀ d, t.hasDim d = true → d < bounds.length) :
    t.eval bounds k = k.require >>= fun _ => .ok (t.rangeOver bounds k) := by
  induction t with
  | const c => rfl
  | dim d =>
    have within : d < bounds.length := inside d (by simp [hasDim])
    simp only [eval, boundAt, fetch, List.getElem?_eq_getElem within, rangeOver,
      List.getD_eq_getElem _ _ within]
    rfl
  | unary op f p t ih =>
    rw [eval, ih inside]
    cases k.require <;> rfl
  | binary op f p s t ih ih' =>
    rw [eval, ih fun d h => inside d (by simp [hasDim, h]),
      ih' fun d h => inside d (by simp [hasDim, h])]
    cases k.require <;> rfl


theorem both_rangeOver (uniform : t.IsUniform) (inside : ∀ d, t.hasDim d = true → d < bounds.length)
    (ranges : ∀ i ∈ bounds, i.hi.kind = i.lo.kind) : (t.rangeOver bounds k).Both (·.kind = k) := by
  have closed := Number.closed_kind k
  induction t with
  | const c =>
    cases c with
    | exact x => exact ⟨x.kind_convert k _, x.kind_convert k _⟩
    | range i => exact Interval.both_convert uniform k
  | dim d =>
    have within : d < bounds.length := inside d (by simp [hasDim])
    rw [rangeOver, List.getD_eq_getElem _ _ within]
    exact Interval.both_convert (ranges _ (List.getElem_mem within)) k
  | unary op f p t ih => exact ((ih uniform inside).unary closed op).round closed f p
  | binary op f p s t ih ih' =>
    have left := ih uniform.1 fun d h => inside d (by simp [hasDim, h])
    have right := ih' uniform.2 fun d h => inside d (by simp [hasDim, h])
    exact (left.binary closed op right).round closed f p

theorem rangeOver_substitute (inside : ∀ e, t.hasDim e = true → e < bounds.length)
    (kind : (r.rangeOver bounds k).kind = k) :
    (substitute d r t).rangeOver bounds k = t.rangeOver (bounds.set d (r.rangeOver bounds k)) k := by
  induction t with
  | const c => rfl
  | dim e =>
    have within : e < bounds.length := inside e (by simp [hasDim])
    by_cases same : e = d
    · subst same
      simp [substitute, rangeOver, Interval.convert, kind, within]
    · simp [substitute, rangeOver, same, Ne.symm same]
  | unary op f p t ih => rw [substitute, rangeOver, ih inside, rangeOver]
  | binary op f p s t ih ih' =>
    rw [substitute, rangeOver, ih fun e h => inside e (by simp [hasDim, h]),
      ih' fun e h => inside e (by simp [hasDim, h]), rangeOver]

theorem hasDim_of_substitute {e : Nat} (occurs : (substitute d r t).hasDim e = true) :
    t.hasDim e = true ∨ r.hasDim e = true := by
  induction t with
  | const c => cases occurs
  | dim f =>
    rw [substitute] at occurs
    split at occurs
    · exact .inr occurs
    · exact .inl occurs
  | unary op f p t ih => exact ih occurs
  | binary op f p s t ih ih' =>
    simp only [substitute, hasDim, Bool.or_eq_true] at occurs ⊢
    tauto

theorem eval_substitute (ht : ∀ e, t.hasDim e = true → e < bounds.length)
    (hr : ∀ e, r.hasDim e = true → e < bounds.length) (uniform : r.IsUniform)
    (ranges : ∀ i ∈ bounds, i.hi.kind = i.lo.kind) :
    (substitute d r t).eval bounds k =
      r.eval bounds k >>= fun i => t.eval (bounds.set d i) k := by
  have kind := (both_rangeOver (k := k) uniform hr ranges).lo
  rw [eval_eq fun e occurs => (hasDim_of_substitute occurs).elim (ht e) (hr e), eval_eq hr,
    rangeOver_substitute ht kind]
  cases refused : k.require with
  | error e => rfl
  | ok u =>
    change _ = t.eval _ k
    rw [eval_eq (by simpa using ht), refused]

theorem exists_eval (bits : k ≠ .binary 0)
    (inside : ∀ d, t.hasDim d = true → d < bounds.length) : ∃ i, t.eval bounds k = .ok i := by
  have accepted : k.require = .ok () := by
    unfold Kind.require
    split
    · exact absurd rfl bits
    · rfl
  exact ⟨_, by rw [eval_eq inside, accepted]; rfl⟩

/-! ### Moving to another environment -/

theorem eval_mapDims (same : ∀ d, t.hasDim d = true → bounds[g d]? = others[d]?) :
    (t.mapDims g).eval bounds k = t.eval others k := by
  induction t with
  | const c => rfl
  | dim d =>
    simp only [mapDims, eval, boundAt, fetch, same d (by simp [hasDim])]
  | unary op f p t ih => rw [mapDims, eval, ih same, eval]
  | binary op f p s t ih ih' =>
    rw [mapDims, eval, ih fun d h => same d (by simp [hasDim, h]),
      ih' fun d h => same d (by simp [hasDim, h]), eval]

theorem hasDim_of_mapDims {e : Nat} (occurs : (t.mapDims g).hasDim e = true) :
    ∃ d, t.hasDim d = true ∧ g d = e := by
  induction t with
  | const c => cases occurs
  | dim d => exact ⟨d, by simp [hasDim], of_decide_eq_true occurs⟩
  | unary op f p t ih => exact ih occurs
  | binary op f p s t ih ih' =>
    rcases Bool.or_eq_true_iff.1 occurs with left | right
    · obtain ⟨d, occurs, same⟩ := ih left
      exact ⟨d, by simp [hasDim, occurs], same⟩
    · obtain ⟨d, occurs, same⟩ := ih' right
      exact ⟨d, by simp [hasDim, occurs], same⟩

theorem allConstants_mapDims {P : Coefficient → Prop} :
    (t.mapDims g).AllConstants P ↔ t.AllConstants P := by
  induction t with
  | const c => rfl
  | dim d => rfl
  | unary op f p t ih => exact ih
  | binary op f p s t ih ih' => exact and_congr ih ih'

end Term

namespace Scoped

open Environment

variable {t r : Scoped Term} {e f : Environment} {c : SpaceChange} {k : Kind} {v : String}

/-- The environment is valid and has all dimensions of the term. -/
structure IsFormed (t : Scoped Term) : Prop where
  valid : t.env.IsValid
  inside : t.item.support ≤ t.env.size

theorem extend_spec (ht : t.IsFormed) (hf : f.IsValid) (within : t.env.Within f) :
    ∃ u : Term, t.extend f = .ok ⟨f, u⟩ ∧ (∀ e, u.hasDim e = true → e < f.vars.length) ∧
      (t.item.IsUniform → u.IsUniform) ∧
      ∀ (σ : String → Interval) k, u.eval (f.vars.map σ) k = t.item.eval (t.env.vars.map σ) k := by
  obtain ⟨c, embedding, embeds⟩ := embedding?_spec ht.valid hf within
  have known : f.missing? t.env.vars = none := missing?_eq_none_iff.2 fun v mem => within.vars mem
  have moved (d : Nat) occurs : f.vars[c.shift d]? = t.env.vars[d]? :=
    embeds.moved d ((Term.lt_support occurs).trans_le ht.inside)
  refine ⟨t.item.addDimensions c, ?_, ?_, ?_, fun σ k => Term.eval_mapDims fun d occurs => ?_⟩
  · rw [extend, embed, known, embedding]
    rfl
  · intro e occurs
    obtain ⟨d, old, rfl⟩ := Term.hasDim_of_mapDims occurs
    have inside : d < t.env.vars.length := length_vars ▸ (Term.lt_support old).trans_le ht.inside
    exact (List.getElem?_eq_some_iff.1 ((moved d old).trans (List.getElem?_eq_getElem inside))).1
  · exact Term.allConstants_mapDims.2
  · rw [List.getElem?_map, List.getElem?_map, moved d occurs]

theorem substitute_spec (ht : t.IsFormed) (hr : r.IsFormed) (agree : ∀ w, ¬ t.env.Clash r.env w)
    (known : v ∈ t.env.vars) (uniform : r.item.IsUniform) :
    ∃ s, t.substitute v r = .ok s ∧ t.env.union r.env = .ok s.env ∧ IsUnion t.env r.env s.env ∧
      ∀ (σ : String → Interval) (k : Kind), (∀ w ∈ s.env.vars, (σ w).hi.kind = (σ w).lo.kind) →
        (s.item.eval (s.env.vars.map σ) k = do
          let i ← r.item.eval (r.env.vars.map σ) k
          t.item.eval (t.env.vars.map (Function.update σ v i)) k) ∧
        (k ≠ .binary 0 → ∃ i, s.item.eval (s.env.vars.map σ) k = .ok i) := by
  obtain ⟨u, united, union⟩ :=
    ((union_cases ht.valid hr.valid).resolve_left fun ⟨w, clash, _⟩ => agree w clash).2
  obtain ⟨body, extended, bodyInside, -, bodyEval⟩ := extend_spec ht union.valid union.left
  obtain ⟨arg, extended', argInside, argUniform, argEval⟩ :=
    extend_spec hr union.valid union.right
  obtain ⟨d, place⟩ := List.getElem?_of_mem (union.left.vars known)
  obtain ⟨e, old⟩ := List.getElem?_of_mem known
  have found : u.dimension v = .ok d := by
    rw [dimension, union.valid.dimension?_eq_some_iff.2 place]
  have found' : t.env.dimension v = .ok e := by
    rw [dimension, ht.valid.dimension?_eq_some_iff.2 old]
  refine ⟨⟨u, .substitute d arg body⟩, ?_, united, union, fun σ k ranges => ?_⟩
  · simp only [substitute, found', united, extended, extended', found, bind, Except.bind]
    rfl
  · have inBounds {x : Term} (inside : ∀ e, x.hasDim e = true → e < u.vars.length) e
        (occurs : x.hasDim e = true) : e < (u.vars.map σ).length := by
      simpa using inside e occurs
    refine ⟨?_, fun bits => Term.exists_eval bits fun e occurs =>
      (Term.hasDim_of_substitute occurs).elim (inBounds bodyInside e) (inBounds argInside e)⟩
    rw [Term.eval_substitute (inBounds bodyInside) (inBounds argInside) (argUniform uniform)
      (by simpa using ranges), argEval]
    simp only [set_map_vars union.valid place, bodyEval]

end Scoped

/-- Substitution commutes with evaluation in every kind. -/
theorem substitution_evaluates_replacement (k : Kind) :
    (∀ (t r : Term) (d : Nat) (bounds : List Interval), t.support ≤ bounds.length →
      r.support ≤ bounds.length → r.IsUniform → (∀ i ∈ bounds, i.hi.kind = i.lo.kind) →
      ((Term.substitute d r t).eval bounds k = do
        let i ← r.eval bounds k
        t.eval (bounds.set d i) k) ∧
      (k ≠ .binary 0 → ∃ i, (Term.substitute d r t).eval bounds k = .ok i)) ∧
    ∀ (t r : Scoped Term) (v : String), t.IsFormed → r.IsFormed →
      (∀ w, ¬ t.env.Clash r.env w) → v ∈ t.env.vars → r.item.IsUniform →
      ∃ s, t.substitute v r = .ok s ∧ t.env.union r.env = .ok s.env ∧
        Environment.IsUnion t.env r.env s.env ∧
        ∀ σ : String → Interval, (∀ w ∈ s.env.vars, (σ w).hi.kind = (σ w).lo.kind) →
          (s.item.eval (s.env.vars.map σ) k = do
            let i ← r.item.eval (r.env.vars.map σ) k
            t.item.eval (t.env.vars.map (Function.update σ v i)) k) ∧
          (k ≠ .binary 0 → ∃ i, s.item.eval (s.env.vars.map σ) k = .ok i) := by
  refine ⟨fun t r d bounds ht hr uniform ranges => ?_, fun t r v ht hr agree known uniform => ?_⟩
  · have left (e : Nat) (occurs : t.hasDim e = true) := (Term.lt_support occurs).trans_le ht
    have right (e : Nat) (occurs : r.hasDim e = true) := (Term.lt_support occurs).trans_le hr
    exact ⟨Term.eval_substitute left right uniform ranges, fun bits => Term.exists_eval bits
      fun e occurs => (Term.hasDim_of_substitute occurs).elim (left e) (right e)⟩
  · obtain ⟨s, run, united, union, values⟩ := Scoped.substitute_spec ht hr agree known uniform
    exact ⟨s, run, united, union, fun σ ranges => values σ k ranges⟩

/-- The replacement for `x` mentions `x` itself, which moves behind `a`, and it is a double range
where rationals are asked for. -/
theorem replacement_mentions_its_variable :
    let t : Scoped Term := ⟨⟨[], ["x", "y"]⟩, .binary .sub .real .nearest (.dim 1) (.dim 0)⟩
    let r : Scoped Term := ⟨⟨[], ["a", "x"]⟩, .mul (.const (.range (.point (.zero .double)))) (.dim 1)⟩
    let σ (w : String) : Interval := if w = "x" then .top .rational else .point (.one .double)
    ∃ s, t.substitute "x" r = .ok s ∧ s.env = ⟨[], ["a", "x", "y"]⟩ ∧
      s.item.eval (s.env.vars.map σ) .rational = .ok (.point (.one .rational)) := by
  intro t r σ
  obtain ⟨s, run, united, -, values⟩ := (substitution_evaluates_replacement .rational).2 t r "x"
    ⟨⟨by decide, by decide, by simp [t]⟩, by decide⟩ ⟨⟨by decide, by decide, by simp [r]⟩, by decide⟩
    (by simp [Environment.Clash, t, r]) (by decide) ⟨rfl, trivial⟩
  have env : s.env = ⟨[], ["a", "x", "y"]⟩ := (Except.ok.inj united).symm
  refine ⟨s, run, env, (values σ fun w _ => ?_).1.trans (by decide +kernel)⟩
  dsimp only [σ]
  split
  · rfl
  · rfl

end Enclosure
