import Enclosure.Proofs.Bounds
import Enclosure.Proofs.Polyhedron.Ranges

/-!
# Meeting a polyhedron with constraints

Constraints are relaxed to linear bounds, and bounds become rows.
-/

namespace Enclosure.Polyhedron

open List LinearBound

open Rows (Solves)

variable {request : Request} {risk : Prop} {p : Polyhedron} {s : Space} {strict : Bool}
  {cs : List LinearConstraint} {bounds : List Interval}
  {needs gives : LinearConstraint → List Rat → Prop} {bs : List LinearBound}

/-- The rows that a bound becomes. -/
def rowsFor (strict : Bool) (b : LinearBound) : List Row :=
  match b.relation with
  | .atMost => [⟨b.coeffs, b.bound, false⟩]
  | .below => [⟨b.coeffs, b.bound, strict⟩]
  | .equal => [⟨b.coeffs, b.bound, false⟩, Row.flip ⟨b.coeffs, b.bound, false⟩]

theorem rowsOf_eq (strict : Bool) (b : LinearBound) :
    rowsOf strict b = Op.answer (!strict && b.relation = .below) (rowsFor strict b) := by
  unfold rowsOf rowsFor
  cases kind : b.relation <;> cases strict <;> rfl

theorem mapM_rowsOf (strict : Bool) (bs : List LinearBound) :
    bs.mapM (rowsOf strict) = Op.answer (bs.any fun b => !strict && b.relation = .below)
      (bs.map (rowsFor strict)) := by
  induction bs with
  | nil => rfl
  | cons b bs ih =>
    simp only [mapM_cons, ih, rowsOf_eq, Op.answer_map, Op.answer_bind, any_cons, map_cons]

theorem solves_rowsFor_iff {b : LinearBound} (kept : strict = true ∨ b.relation ≠ .below)
    (x : List Rat) : Solves (rowsFor strict b) x ↔ b.holdsAt x = true := by
  unfold rowsFor
  cases kind : b.relation with
  | equal =>
    rw [Rows.solves_cons, Rows.solves_cons, Row.holdsAt_iff, Row.holdsAt_iff, Row.flip, dot_map_neg,
      holdsAt, kind, BoundRelation.holds, decide_eq_true_iff, le_antisymm_iff]
    simp [Under]
  | _ => simp_all [Row.holdsAt, holdsAt, BoundRelation.holds]

theorem solves_rowsFor {b : LinearBound} {x : List Rat} (holds : b.holdsAt x = true) :
    Solves (rowsFor strict b) x := by
  by_cases kept : strict = true ∨ b.relation ≠ .below
  · exact (solves_rowsFor_iff kept x).2 holds
  · obtain ⟨loose, kind⟩ : strict = false ∧ b.relation = .below := by simpa using kept
    have less : dot b.coeffs x < b.bound := by
      simpa [holdsAt, BoundRelation.holds, kind] using holds
    rw [rowsFor, kind]
    exact Rows.solves_cons.2 ⟨Row.holdsAt_iff.2 (under_of_lt less), by simp⟩

theorem solves_flatten_rowsFor {x : List Rat} :
    Solves (bs.map (rowsFor strict)).flatten x ↔ ∀ b ∈ bs, Solves (rowsFor strict b) x := by
  simp only [Solves, ← flatMap_def, forall_mem_flatMap]

theorem width_flatten_rowsFor {n : Nat} (width : ∀ b ∈ bs, b.coeffs.length = n) :
    ∀ r ∈ (bs.map (rowsFor strict)).flatten, r.coeffs.length = n := by
  rw [← flatMap_def, forall_mem_flatMap]
  intro b mem
  unfold rowsFor
  cases b.relation <;> simp [Row.flip, width b mem]

def Relaxes (request : Request) (risk : Prop) (bounds : List Interval) (s : Space)
    (needs gives : LinearConstraint → List Rat → Prop) (c : LinearConstraint) : Prop :=
  Op.Ensures request risk (LinearBound.relax c bounds s) fun result =>
    (∀ bs, result = some bs → ∀ b ∈ bs, b.coeffs.length = s.size) ∧
      (∀ x, needs c x → ∃ bs, result = some bs ∧ ∀ b ∈ bs, b.holdsAt x = true) ∧
        ∀ bs, result = some bs → ∀ x, x.length = s.size →
          (∀ b ∈ bs, b.relation ≠ .below → b.holdsAt x = true) → gives c x

theorem ensures_relaxAll (strict : Bool)
    (each : ∀ c ∈ cs, Relaxes request risk bounds s needs gives c) :
    Op.Ensures request risk (relaxAll strict bounds s cs) fun result =>
      (∀ rows, result = some rows → ∀ r ∈ rows, r.coeffs.length = s.size) ∧
        (∀ x, (∀ c ∈ cs, needs c x) → ∃ rows, result = some rows ∧ Solves rows x) ∧
          ∀ rows, result = some rows → ∀ x, x.length = s.size → Solves rows x →
            ∀ c ∈ cs, gives c x := by
  induction cs with
  | nil => exact Op.ensures_pure (by simp)
  | cons c cs ih =>
    refine (each c (by simp)).bind ?_
    rintro result ⟨width, hold, give⟩
    cases result with
    | none =>
      -- a constraint that cannot be satisfied is needed nowhere
      refine Op.ensures_pure ⟨by simp, fun x needed => ?_, by simp⟩
      obtain ⟨bs, impossible, -⟩ := hold x (needed c (by simp))
      exact absurd impossible (by simp)
    | some bs =>
      have rows : Op.Ensures request risk (bs.mapM (rowsOf strict))
          (· = bs.map (rowsFor strict)) := by
        rw [mapM_rowsOf]
        exact .markInexactIf (Op.ensures_pure rfl)
      refine rows.bind ?_
      rintro _ rfl
      refine (ih fun c mem => each c (by simp [mem])).bind ?_
      rintro _ ⟨wideRest, holdRest, giveRest⟩
      refine Op.ensures_pure ⟨?_, fun x needed => ?_, ?_⟩
      · intro all found r mem
        obtain ⟨others, rfl, rfl⟩ := Option.map_eq_some_iff.1 found
        exact (mem_append.1 mem).elim (width_flatten_rowsFor (width bs rfl) r)
          (wideRest others rfl r)
      · rw [forall_mem_cons] at needed
        obtain ⟨_, found, holds⟩ := hold x needed.1
        obtain ⟨others, rfl, solves⟩ := holdRest x needed.2
        obtain rfl := Option.some.inj found
        exact ⟨_, rfl, Rows.solves_append.2
          ⟨solves_flatten_rowsFor.2 fun b mem => solves_rowsFor (holds b mem), solves⟩⟩
      · intro all found x length solves
        obtain ⟨others, rfl, rfl⟩ := Option.map_eq_some_iff.1 found
        rw [Rows.solves_append, solves_flatten_rowsFor] at solves
        refine forall_mem_cons.2 ⟨give bs rfl x length fun b mem kept => ?_,
          giveRest others rfl x length solves.2⟩
        exact (solves_rowsFor_iff (.inr kept) x).1 (solves.1 b mem)

theorem ensures_addConstraints (strict : Bool)
    (each : ∀ c ∈ cs, Relaxes request risk bounds p.space needs gives c) :
    Op.Ensures request risk (p.addConstraints strict bounds cs) fun q =>
      q.space = p.space ∧ (∀ x, p.Contains x → (∀ c ∈ cs, needs c x) → q.Contains x) ∧
        ∀ x, q.Contains x → p.Contains x ∧ ∀ c ∈ cs, gives c x := by
  refine (ensures_relaxAll strict each).bind ?_
  rintro result ⟨width, hold, give⟩
  cases result with
  | none =>
    refine Op.ensures_pure
      ⟨rfl, fun x _ needed => ?_, fun x inside => absurd inside not_contains_bottom⟩
    obtain ⟨rows, impossible, -⟩ := hold x needed
    exact absurd impossible (by simp)
  | some added =>
    have wide : ∀ r ∈ Rows.tidy (p.rows ++ added), r.coeffs.length = p.space.size :=
      Rows.width_tidy fun r mem => (mem_append.1 mem).elim (p.wide r) (width added rfl r)
    refine (ensures_make wide).mono ?_
    rintro q ⟨space, rows⟩
    have inside (x : List Rat) : q.Contains x ↔ p.Contains x ∧ Solves added x := by
      rw [Contains, space, rows, Rows.solves_tidy, Rows.solves_append, Contains, and_assoc]
    refine ⟨space, fun x old needed => ?_, fun x new => ?_⟩
    · obtain ⟨_, found, solves⟩ := hold x needed
      obtain rfl := Option.some.inj found
      exact (inside x).2 ⟨old, solves⟩
    · obtain ⟨old, solves⟩ := (inside x).1 new
      exact ⟨old, give added rfl x old.1 solves⟩

theorem inBox_replicate_top (n : Nat) (x : List Rat) : InBox (replicate n (.top .rational)) x := by
  intro d i found
  rw [eq_of_mem_replicate (mem_of_getElem? found)]
  exact Interval.has_top _

theorem ensures_meetLinear (strict : Bool) (valid : ∀ c ∈ cs, c.form.Valid)
    (below : ∀ c ∈ cs, c.form.Below p.space.size) :
    Op.Ensures request True (p.meetLinear strict cs) fun q =>
      q.space = p.space ∧
        (∀ x, p.space.IsPoint x → p.Contains x → (∀ c ∈ cs, c.Admits x) → q.Contains x) ∧
          ∀ x, q.Contains x → p.Contains x := by
  -- the ranges are only read where coefficients are ranges, and are not computed otherwise
  have add (bounds : List Interval) (length : bounds.length = p.space.size)
      (ranges : ∀ i ∈ bounds, i.IsRational) (box : ∀ x, p.Contains x → InBox bounds x) :
      Op.Ensures request True (p.addConstraints strict bounds cs) fun q =>
        q.space = p.space ∧
          (∀ x, p.space.IsPoint x → p.Contains x → (∀ c ∈ cs, c.Admits x) → q.Contains x) ∧
            ∀ x, q.Contains x → p.Contains x := by
    have relaxes (c : LinearConstraint) mem :
        Relaxes request True bounds p.space
          (fun c x => p.space.IsPoint x ∧ InBox bounds x ∧ c.Admits x) (fun _ _ => True) c :=
      (ensures_relax (valid c mem) length (fun i mem => (ranges i mem).valid)
        (below c mem) fun _ _ _ => trivial).mono fun result h =>
        ⟨h.1, fun x needed => h.2 x needed.1 needed.2.1 needed.2.2, by simp⟩
    refine (ensures_addConstraints strict relaxes).mono ?_
    rintro q ⟨space, keeps, within⟩
    refine ⟨space, fun x point inside admits => ?_, fun x inside => (within x inside).1⟩
    exact keeps x inside fun c mem => ⟨point, box x inside, admits c mem⟩
  unfold meetLinear
  split
  · refine add _ (by simp) (fun i mem => ?_) fun x _ => inBox_replicate_top _ x
    rw [eq_of_mem_replicate mem]
    exact Interval.isRational_top
  · refine ((ensures_isBottom p).weaken fun _ => trivial).bind fun empty _ => ?_
    cases empty with
    | true => exact Op.ensures_pure ⟨rfl, fun x _ inside _ => inside, fun x inside => inside⟩
    | false =>
      refine ((ensures_toBox p).weaken fun _ => trivial).bind ?_
      rintro bounds ⟨length, ranges, box⟩
      exact add bounds length ranges box

end Enclosure.Polyhedron
