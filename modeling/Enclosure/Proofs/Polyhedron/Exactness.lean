import Enclosure.Proofs.Polyhedron.Assignment
import Enclosure.Proofs.Relaxation

/-!
# Exact reports of polyhedra

A linear bound becomes rows with the same solutions, unless it is strict and strict rows are not
kept, which is reported.
-/

namespace Enclosure

open Op

namespace Rows

variable {rows : List Row}

instance (fuel : Nat) (rows : List Row) (keep : List Bool) :
    (eliminateAll fuel rows keep).Composed := by
  induction fuel generalizing rows keep with
  | zero => exact .pure _
  | succ fuel ih =>
    rw [eliminateAll]
    split
    · infer_instance
    · split <;> infer_instance

instance (keep : List Bool) : (project rows keep).Composed := by
  unfold project
  infer_instance

instance (rows : List Row) : (infeasible rows).Composed := by
  refine .andThen inferInstance fun result => ?_
  split <;> infer_instance

instance (r : Row) : (entails rows r).Composed := by
  unfold entails
  infer_instance

end Rows

namespace Polyhedron

open Rows (Solves)

variable {request : Request} {p a b : Polyhedron} {s : Space} {bounds : List Interval}
  {cs : List LinearConstraint}

theorem hasPoint_iff_of_real (real : p.space.ints = 0) {x : List Rat} :
    p.HasPoint x ↔ p.Contains x :=
  ⟨.right, fun inside => ⟨Space.isPoint_of_real real inside.1, inside⟩⟩

/-! ### Composition -/

instance (operation : DomainOperation) : (requireSame operation a b).Composed := by
  unfold requireSame
  infer_instance

instance (p : Polyhedron) : p.isBottom.Composed := by
  unfold isBottom
  infer_instance

instance (a b : Polyhedron) : (a.isLeq b).Composed := by
  unfold isLeq includes
  infer_instance

instance (p : Polyhedron) (d : Nat) : (p.boundDimension d).Composed := by
  unfold boundDimension
  split
  · infer_instance
  · refine .andThen inferInstance fun result => ?_
    split <;> infer_instance

instance (p : Polyhedron) : p.toBox.Composed := by
  unfold toBox
  infer_instance

instance (before after : List Row) : (dropRedundant? before after).Composed := by
  induction after generalizing before with
  | nil => exact .pure _
  | cons r after ih =>
    rw [dropRedundant?]
    infer_instance

instance (fuel : Nat) (rows : List Row) : (dropAllRedundant fuel rows).Composed := by
  induction fuel generalizing rows with
  | zero => exact .pure _
  | succ fuel ih =>
    refine .andThen inferInstance fun result => ?_
    split <;> infer_instance

instance (p : Polyhedron) : p.minimize.Composed := by
  unfold minimize
  infer_instance

instance (b : LinearBound) : (rowsOf strict b).Composed := by
  unfold rowsOf
  dsimp only
  split <;> infer_instance

instance (cs : List LinearConstraint) : (relaxAll strict bounds s cs).Composed := by
  induction cs with
  | nil => exact .pure _
  | cons c cs ih =>
    refine .andThen inferInstance fun result => ?_
    split <;> infer_instance

instance (p : Polyhedron) (cs : List LinearConstraint) :
    (addConstraints strict p bounds cs).Composed := by
  refine .andThen inferInstance fun result => ?_
  split <;> infer_instance

instance (first kept : List Row) (c : Row) : (keepIfStable first kept c).Composed := by
  unfold keepIfStable replacesSome
  infer_instance

instance (rows : List Row) (keep : List Bool) : (forgetRows rows keep).Composed := by
  refine .andThen inferInstance fun result => ?_
  split <;> infer_instance

instance : (core strict).Composed where
  ofBox s is := by
    unfold core ofIntervals
    infer_instance
  isBottom v := inferInstanceAs v.isBottom.Composed
  isTop v := .pure _
  isLeq a b := inferInstanceAs (a.isLeq b).Composed
  boundDimension v d := inferInstanceAs (v.boundDimension d).Composed
  toBox v := inferInstanceAs v.toBox.Composed
  toLinear v := by
    unfold core toLinear
    infer_instance
  meet a b := by
    unfold core meet
    infer_instance
  meetLinear v cs := by
    unfold core meetLinear
    infer_instance
  join a b := by
    unfold core join
    refine .andThen inferInstance fun _ => .andThen inferInstance fun leq => ?_
    split
    · infer_instance
    · refine .andThen inferInstance fun geq => ?_
      split
      · infer_instance
      · refine .andThen inferInstance fun _ => .andThen inferInstance fun rows => ?_
        split <;> infer_instance
  widening a b := by
    unfold core widening
    refine .andThen inferInstance fun _ => .andThen inferInstance fun empty => ?_
    infer_instance
  addDimensions v c project := by
    unfold core addDimensions
    infer_instance
  removeDimensions v c := by
    unfold core removeDimensions
    dsimp only
    split
    · infer_instance
    · refine .andThen inferInstance fun s => .andThen inferInstance fun result => ?_
      split <;> infer_instance
  permuteDimensions v p := by
    unfold core permuteDimensions
    infer_instance
  forget v dims project := by
    unfold core forget
    infer_instance

instance : (domain strict).Composed where
  toComposed := inferInstanceAs (core strict).Composed
  boundForm v f := by
    unfold domain boundForm
    dsimp only
    refine .andThen inferInstance fun empty => ?_
    split
    · infer_instance
    · split
      · infer_instance
      · refine .andThen inferInstance fun result => ?_
        split <;> infer_instance
  assignForms v dims forms := (core strict).composed_assignByFresh v dims forms
  assignTerms v dims ts := (core strict).composed_assignLinearized v dims ts

/-! ### Constraints -/

theorem reports_relaxAll (strict : Bool)
    (regular : ∀ c ∈ cs, c.form.Valid ∧ c.form.Below s.size ∧ c.form.IsRegular) :
    Reports request (relaxAll strict bounds s cs)
      (fun result => ∀ rows, result = some rows → ∀ r ∈ rows, r.coeffs.length = s.size)
      fun result => ∀ x, s.IsPoint x →
        ((∃ rows, result = some rows ∧ Solves rows x) ↔ ∀ c ∈ cs, c.Holds x) := by
  induction cs with
  | nil => exact reports_pure (by simp) (by simp)
  | cons c cs ih =>
    obtain ⟨⟨valid, below, finite⟩, others⟩ := List.forall_mem_cons.1 regular
    refine (LinearBound.reports_relax valid below finite).bind fun result shape => ?_
    cases result with
    | none =>
      refine reports_pure (by simp) fun first x point => iff_of_false (by simp) fun all => ?_
      obtain ⟨bs, impossible, -⟩ := (first x point).2 (all c (by simp))
      simp at impossible
    | some bs =>
      have rows : Reports request (bs.mapM (rowsOf strict)) (· = bs.map (rowsFor strict))
          fun _ => ∀ b ∈ bs, strict = true ∨ b.relation ≠ .below := by
        rw [mapM_rowsOf]
        refine .markInexactIf (reports_pure rfl fun kept b mem => ?_)
        simpa [or_iff_not_imp_left] using List.any_eq_false.1 (eq_false_of_ne_true kept) b mem
      refine rows.bind ?_
      rintro _ rfl
      refine (ih others).bind fun rest width' => reports_pure ?_ ?_
      · rintro _ found r mem
        obtain ⟨left, rfl, rfl⟩ := Option.map_eq_some_iff.1 found
        exact (List.mem_append.1 mem).elim
          (width_flatten_rowsFor (fun b mem => (shape bs rfl b mem).1) r) (width' left rfl r)
      · intro later kept first x point
        have same := forall₂_congr fun b mem => solves_rowsFor_iff (kept b mem) x
        rw [List.forall_mem_cons, ← first x point, ← later x point]
        cases rest with
        | none => simp
        | some left => simp [solves_flatten_rowsFor, same]

theorem reports_meetLinear (strict : Bool)
    (regular : ∀ c ∈ cs, c.form.Valid ∧ c.form.Below p.space.size ∧ c.form.IsRegular) :
    Reports request (p.meetLinear strict cs) (fun w => w.space = p.space)
      fun w => ∀ x, w.HasPoint x ↔ p.HasPoint x ∧ ∀ c ∈ cs, c.Holds x := by
  have quasilinear : cs.all (·.form.isQuasilinear) = true :=
    List.all_eq_true.2 fun c mem => (regular c mem).2.2.isQuasilinear
  rw [meetLinear, if_pos quasilinear]
  refine (reports_relaxAll strict regular).bind fun result width => ?_
  cases result with
  | none =>
    refine reports_pure rfl fun relaxed x => iff_of_false (fun h => not_contains_bottom h.2) ?_
    intro h
    obtain ⟨rows, impossible, -⟩ := (relaxed x h.1.1).2 h.2
    simp at impossible
  | some rows =>
    have wide : ∀ r ∈ Rows.tidy (p.rows ++ rows), r.coeffs.length = p.space.size :=
      Rows.width_tidy fun r mem => (List.mem_append.1 mem).elim (p.wide r) (width rows rfl r)
    refine reports_ofExcept (dif_pos wide) rfl fun relaxed x => ?_
    rw [HasPoint, HasPoint, Contains, Contains, Rows.solves_tidy, and_assoc, and_assoc]
    refine and_congr_right fun point => ?_
    rw [← relaxed x point]
    simp

theorem exactly_join (same : a.space = b.space) :
    Exactly (a.join b) fun w => w = b ∧ (∀ x, a.Contains x → b.Contains x) ∨
      w = a ∧ ∀ x, b.Contains x → a.Contains x := by
  have included {a b : Polyhedron} (same : a.space = b.space) :
      Exactly (a.isLeq b) fun answer => answer = true → ∀ x, a.Contains x → b.Contains x := by
    have sound (request : Request) : Ensures request request.Limited (a.isLeq b) fun answer =>
        answer = true → ∀ x, a.Contains x → b.Contains x :=
      (ensures_isLeq same).mono fun _ h => h.1
    exact (yields_of_ensures sound).exactly (neverRegains _)
  rw [join, requireSame, if_pos same, pure_bind]
  refine (included same).bind fun leq => ?_
  split
  · rename_i yes
    exact exactly_pure fun within => .inl ⟨rfl, within yes⟩
  · refine (included same.symm).bind fun geq => ?_
    split
    · rename_i yes
      exact exactly_pure fun within _ => .inr ⟨rfl, within yes⟩
    · refine exactly_markInexactBind (@neverRegains _ _ (.andThen inferInstance fun rows => ?_))
      split <;> infer_instance

theorem reports_join (free : ¬ request.Limited) (same : a.space = b.space) :
    Reports request (a.join b) (fun w => w.space = a.space)
      fun w => ∀ x, w.HasPoint x ↔ a.HasPoint x ∨ b.HasPoint x := by
  refine (((ensures_join same).returns free).reports (exactly_join same)).mono (fun w h => h.1)
    fun w _ exact x => ?_
  simp only [HasPoint]
  rcases exact with ⟨rfl, -⟩ | ⟨rfl, _⟩
  · rw [same]
    tauto
  · rw [← same]
    tauto

end Polyhedron

end Enclosure
