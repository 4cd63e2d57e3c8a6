import Enclosure.Proofs.EnvironmentLattice
import Enclosure.Proofs.TermOperations
import Enclosure.Proofs.TermSubstitution

/-!
# Objects over larger environments

A form, a term or a constraint moves to an environment that has all its variables, with their types.
-/

namespace Enclosure

open List Environment

variable {e f : Environment} {c : SpaceChange} {v : String} {i : Nat} {ρ : String → Rat}

/-! ### Dimensions -/

namespace Environment

theorem embed_cases (he : e.IsValid) (hf : f.IsValid) :
    (∀ v, e.vars.find? (· ∉ f.vars) = some v → e.embed f = .error (.unknownVariable v)) ∧
      (e.vars ⊆ f.vars → ¬ e.Within f →
        ∃ v, e.Clash f v ∧ e.embed f = .error (.incompatibleEnvironment v)) ∧
      (e.Within f → ∃ c, e.embed f = .ok c ∧ Embeds c e f) := by
  have first : f.missing? e.vars = e.vars.find? (· ∉ f.vars) := by
    refine congrArg (find? · e.vars) (funext fun v => ?_)
    rw [Bool.eq_iff_iff, decide_eq_true_iff, Bool.not_eq_true', Bool.eq_false_iff, ne_eq,
      contains_iff]
  have known (sub : e.vars ⊆ f.vars) : f.missing? e.vars = none := missing?_eq_none_iff.2 sub
  refine ⟨fun v found => ?_, fun sub apart => ?_, fun within => ?_⟩
  · rw [embed, first, found]
  · obtain ⟨w, clash⟩ : ∃ w, e.Clash f w := by
      by_contra agree
      exact apart ((within_iff_of_not_clash (not_exists.1 agree)).2 sub)
    have clashes := (clashes_iff he hf).2 clash
    have inVars : w ∈ e.vars := mem_vars.2 (clash.imp And.left And.left)
    have none : e.embedding? f = none := by
      refine if_neg fun all => ?_
      have same := of_decide_eq_true (all_eq_true.1 all w inVars)
      rw [Environment.clashes, same] at clashes
      cases typed : e.isInt? w <;> simp [typed] at clashes
    obtain ⟨v, found⟩ := Option.isSome_iff_exists.1 (find?_isSome.2 ⟨w, inVars, clashes⟩)
    refine ⟨v, (clashes_iff he hf).1 (find?_some found), ?_⟩
    rw [embed, known sub, none, found]
  · obtain ⟨c, found, embeds⟩ := embedding?_spec he hf within
    refine ⟨c, ?_, embeds⟩
    rw [embed, known within.vars, found]

theorem Embeds.getD_point_shift (h : Embeds c e f) (inside : i < e.size) :
    (f.point ρ).getD (c.shift i) 0 = (e.point ρ).getD i 0 := by
  simp [point, h.moved i inside]

end Environment

theorem SpaceChange.shift_injective (c : SpaceChange) : Function.Injective c.shift :=
  StrictMono.injective fun _ _ => shift_lt_shift

/-! ### Forms -/

theorem le_foldl_max {α : Type} (g : α → Nat) {xs : List α} {x : α} (mem : x ∈ xs) (n : Nat) :
    g x ≤ xs.foldl (fun n x => Nat.max n (g x)) n := by
  induction xs generalizing n with
  | nil => cases mem
  | cons y ys ih =>
    rcases mem_cons.1 mem with rfl | mem
    · have grows (ys : List α) : ∀ n, n ≤ ys.foldl (fun n x => Nat.max n (g x)) n := by
        induction ys with
        | nil => exact le_refl
        | cons y ys ih => exact fun n => (Nat.le_max_left n (g y)).trans (ih _)
      exact (Nat.le_max_right n (g x)).trans (grows ys _)
    · exact ih mem _

theorem lookup_map_shift (c : SpaceChange) (es : List (Nat × Coefficient)) (d : Nat) :
    (es.map fun t => (c.shift t.1, t.2)).lookup (c.shift d) = es.lookup d := by
  induction es with
  | nil => rfl
  | cons t es ih =>
    have same : (c.shift d == c.shift t.1) = (d == t.1) := by
      rw [Bool.eq_iff_iff, beq_iff_eq, beq_iff_eq, c.shift_injective.eq_iff]
    rw [map_cons, lookup_cons, lookup_cons, ih, same]

theorem lookup_zipIdx (cs : List Coefficient) (d n : Nat) :
    ((cs.zipIdx n).map fun (k, e) => (e, k)).lookup (n + d) = cs[d]? := by
  induction cs generalizing d n with
  | nil => rfl
  | cons k cs ih =>
    rw [zipIdx_cons, map_cons, lookup_cons]
    cases d with
    | zero => simp
    | succ d =>
      have apart : (n + (d + 1) == n) = false := beq_eq_false_iff_ne.2 (by omega)
      rw [apart, getElem?_cons_succ, ← ih d (n + 1), Nat.add_right_comm, Nat.add_assoc]

theorem sumsTo_map_dims {s : Nat → Nat} {es : List (Nat × Coefficient)} {x y : List Rat}
    (same : ∀ t ∈ es, y.getD (s t.1) 0 = x.getD t.1 0) {q : Rat} :
    Terms.SumsTo y (es.map fun t => (s t.1, t.2)) q ↔ Terms.SumsTo x es q := by
  induction es generalizing q with
  | nil => simp
  | cons t es ih =>
    obtain ⟨here, others⟩ := forall_mem_cons.1 same
    obtain ⟨d, k⟩ := t
    simp only [map_cons, Terms.sumsTo_cons, here, ih others]

theorem foldlM_congr {α β : Type} {f g : β → α → Except Failure β} {xs : List α} {start : β}
    (same : ∀ x ∈ xs, ∀ b, f b x = g b x) : xs.foldlM f start = xs.foldlM g start := by
  induction xs generalizing start with
  | nil => rfl
  | cons x xs ih =>
    obtain ⟨here, others⟩ := forall_mem_cons.1 same
    simp only [foldlM_cons, here, ih others]

namespace LinearForm

variable {a : LinearForm} {k : Coefficient} {d : Nat}

theorem nonzero_addDimensions (a : LinearForm) (c : SpaceChange) :
    (a.addDimensions c).nonzero = a.nonzero.map fun t => (c.shift t.1, t.2) := by
  obtain ⟨constant, cs | es⟩ := a
  · have zero : (!(Coefficient.zero constant.kind).isZero) = false := rfl
    have kept := SpaceChange.filter_zipIdx_insertInto (c := c) (p := fun k => !k.isZero) zero cs
    simp only [nonzero, entries, addDimensions, Terms.entries, filter_map, Function.comp_def,
      kept, map_map]
  · simp only [nonzero, entries, addDimensions, Terms.entries, filter_map, Function.comp_def]

theorem coefficient?_dense (cs : List Coefficient) (d : Nat) :
    coefficient? ⟨k, .dense cs⟩ d = cs[d]? :=
  (congrArg (lookup · _) d.zero_add.symm).trans (lookup_zipIdx cs d 0)

theorem coefficient?_addDimensions (kept : a.coefficient? d = some k) :
    (a.addDimensions c).coefficient? (c.shift d) = some k := by
  obtain ⟨constant, cs | es⟩ := a
  · rw [coefficient?_dense] at kept
    exact (coefficient?_dense _ _).trans (SpaceChange.getElem?_insertInto_shift _ kept)
  · exact (lookup_map_shift c es d).trans kept

theorem mem_entries_of_coefficient? (kept : a.coefficient? d = some k) : (d, k) ∈ a.entries := by
  obtain ⟨l, r, split, -⟩ := lookup_eq_some_iff.1 kept
  simp [split]

theorem lt_support {t : Nat × Coefficient} (mem : t ∈ a.entries) : t.1 < a.support :=
  le_foldl_max (fun t => t.1 + 1) mem 0

structure Follows (a b : Scoped LinearForm) : Prop where
  constant : b.item.constant = a.item.constant
  known : ∀ v ∈ a.env.vars, ∃ k l, a.coefficient v = .ok k ∧ b.coefficient v = .ok l ∧
    (l = k ∨ k.isZero = true ∧ l.isZero = true)
  others : ∀ v ∈ b.env.vars, v ∉ a.env.vars → ∃ k, b.coefficient v = .ok k ∧ k.isZero = true
  values : ∀ ρ q, b.item.Takes (b.env.point ρ) q ↔ a.item.Takes (a.env.point ρ) q
  ranges : ∀ (σ : String → Interval) k,
    b.item.eval (b.env.vars.map σ) k = a.item.eval (a.env.vars.map σ) k

theorem isZero_getD {k : Option Coefficient} (zero : ∀ l, k = some l → l.isZero = true) :
    (k.getD (.zero .double)).isZero = true := by
  cases k with
  | none => rfl
  | some l => exact zero l rfl

theorem coefficient_eq (he : e.IsValid) (place : e.vars[i]? = some v) :
    Scoped.coefficient ⟨e, a⟩ v = .ok ((a.coefficient? i).getD (.zero .double)) := by
  rw [Scoped.coefficient, dimension, he.dimension?_eq_some_iff.2 place]
  rfl

theorem exists_of_coefficient? (kept : (a.addDimensions c).coefficient? d = some k)
    (matters : k.isZero = false) : ∃ i, c.shift i = d ∧ (i, k) ∈ a.entries := by
  have mem := mem_nonzero.2 ⟨mem_entries_of_coefficient? kept, matters⟩
  rw [nonzero_addDimensions] at mem
  obtain ⟨⟨i, _⟩, old, ⟨⟩⟩ := mem_map.1 mem
  exact ⟨i, rfl, (mem_nonzero.1 old).1⟩

theorem follows_addDimensions (he : e.IsValid) (hf : f.IsValid) (h : Embeds c e f)
    (inside : a.support ≤ e.size) : Follows ⟨e, a⟩ ⟨f, a.addDimensions c⟩ where
  constant := rfl
  known := by
    intro v mem
    obtain ⟨i, old⟩ := getElem?_of_mem mem
    have new := h.getElem?_vars_shift old
    refine ⟨_, _, coefficient_eq he old, coefficient_eq hf new, ?_⟩
    cases kept : a.coefficient? i with
    | some k => exact .inl (by rw [coefficient?_addDimensions kept])
    | none =>
      refine .inr ⟨rfl, isZero_getD fun l found => ?_⟩
      by_contra matters
      obtain ⟨j, same, mem⟩ := exists_of_coefficient? found (Bool.eq_false_iff.2 matters)
      rw [c.shift_injective same] at mem
      simpa using lookup_eq_none_iff.1 kept _ mem
  others := by
    intro v mem unknown
    obtain ⟨d, new⟩ := getElem?_of_mem mem
    refine ⟨_, coefficient_eq hf new, isZero_getD fun l found => ?_⟩
    by_contra matters
    obtain ⟨i, rfl, mem⟩ := exists_of_coefficient? found (Bool.eq_false_iff.2 matters)
    exact unknown (mem_of_getElem? ((h.moved i ((lt_support mem).trans_le inside)).symm.trans new))
  values ρ q := by
    have sums r : Terms.SumsTo (f.point ρ) (a.nonzero.map fun t => (c.shift t.1, t.2)) r ↔
        Terms.SumsTo (e.point ρ) a.nonzero r :=
      sumsTo_map_dims fun t mem => h.getD_point_shift
        ((lt_support (mem_nonzero.1 mem).1).trans_le inside)
    simp only [takes_iff_nonzero, nonzero_addDimensions, sums]
    rfl
  ranges σ k := by
    simp only [eval, nonzero_addDimensions, foldlM_map]
    refine congrArg (_ >>= ·) (funext fun start => foldlM_congr fun t mem acc => ?_)
    have moved := h.moved t.1 ((lt_support (mem_nonzero.1 mem).1).trans_le inside)
    simp only [boundAt, fetch, getElem?_map, moved]

end LinearForm

/-! ### Terms -/

namespace Term

variable {t : Term}

structure Follows (t u : Scoped Term) : Prop where
  occurrences : ∀ v, u.hasVariable v = t.hasVariable v
  values : ∀ ρ r, u.item.Takes (u.env.point ρ) r ↔ t.item.Takes (t.env.point ρ) r
  ranges : ∀ (σ : String → Interval) k,
    u.item.eval (u.env.vars.map σ) k = t.item.eval (t.env.vars.map σ) k

theorem takes_mapDims {s : Nat → Nat} {x y : List Rat}
    (same : ∀ d, t.hasDim d = true → y.getD (s d) 0 = x.getD d 0) {r : ℝ} :
    (t.mapDims s).Takes y r ↔ t.Takes x r := by
  induction t generalizing r with
  | const k => rfl
  | dim d => simp only [mapDims, Takes, same d (by simp [hasDim])]
  | unary op format policy t ih => simp only [mapDims, Takes, ih same]
  | binary op format policy t u iht ihu =>
    simp only [mapDims, Takes, iht fun d occurs => same d (by simp [hasDim, occurs]),
      ihu fun d occurs => same d (by simp [hasDim, occurs])]

theorem hasDim_mapDims {s : Nat → Nat} (injective : s.Injective) {d : Nat} :
    (t.mapDims s).hasDim (s d) = t.hasDim d := by
  induction t with
  | const k => rfl
  | dim e => simp only [mapDims, hasDim, injective.eq_iff]
  | unary op format policy t ih => exact ih
  | binary op format policy t u iht ihu => simp only [mapDims, hasDim, iht, ihu]

theorem follows_addDimensions (he : e.IsValid) (hf : f.IsValid) (h : Embeds c e f)
    (inside : t.support ≤ e.size) : Follows ⟨e, t⟩ ⟨f, t.addDimensions c⟩ where
  occurrences v := by
    cases old : e.dimension? v with
    | some i =>
      have new := hf.dimension?_eq_some_iff.2
        (h.getElem?_vars_shift (he.dimension?_eq_some_iff.1 old))
      simp only [Scoped.hasVariable, old, new]
      exact hasDim_mapDims c.shift_injective
    | none =>
      have absent : ¬ Scoped.hasVariable ⟨f, t.addDimensions c⟩ v = true := by
        unfold Scoped.hasVariable
        split
        · rename_i d new
          intro occurs
          obtain ⟨i, known, rfl⟩ := hasDim_of_mapDims occurs
          have place := (h.moved i ((lt_support known).trans_le inside)).symm.trans
            (hf.dimension?_eq_some_iff.1 new)
          simp [he.dimension?_eq_some_iff.2 place] at old
        · exact Bool.false_ne_true
      rw [Bool.eq_false_iff.2 absent]
      simp only [Scoped.hasVariable, old]
  values ρ r := takes_mapDims fun d occurs => h.getD_point_shift ((lt_support occurs).trans_le inside)
  ranges σ k := eval_mapDims fun d occurs => by
    rw [getElem?_map, getElem?_map, h.moved d ((lt_support occurs).trans_le inside)]

end Term

/-! ### Constraints -/

/-- A constraint over a larger environment compares a form that follows the given one in the same
way. -/
structure LinearConstraint.Follows (a b : Scoped LinearConstraint) : Prop where
  comparison : b.item.comparison = a.item.comparison
  modulus : b.item.modulus = a.item.modulus
  form : LinearForm.Follows (a.map form) (b.map form)
  holds : ∀ ρ, b.item.Holds (b.env.point ρ) ↔ a.item.Holds (a.env.point ρ)

structure TermConstraint.Follows (a b : Scoped TermConstraint) : Prop where
  comparison : b.item.comparison = a.item.comparison
  modulus : b.item.modulus = a.item.modulus
  term : Term.Follows (a.map term) (b.map term)
  holds : ∀ ρ, b.item.Holds (b.env.point ρ) ↔ a.item.Holds (a.env.point ρ)

theorem LinearConstraint.follows_addDimensions {a : LinearConstraint} (he : e.IsValid)
    (hf : f.IsValid) (h : Embeds c e f) (inside : a.form.support ≤ e.size) :
    Follows ⟨e, a⟩ ⟨f, a.addDimensions c⟩ := by
  have form := LinearForm.follows_addDimensions he hf h inside
  exact ⟨rfl, rfl, form, fun ρ => exists_congr fun q => and_congr_left' (form.values ρ q)⟩

theorem TermConstraint.follows_addDimensions {a : TermConstraint} (he : e.IsValid)
    (hf : f.IsValid) (h : Embeds c e f) (inside : a.term.support ≤ e.size) :
    Follows ⟨e, a⟩ ⟨f, a.addDimensions c⟩ := by
  have term := Term.follows_addDimensions he hf h inside
  exact ⟨rfl, rfl, term, fun ρ => exists_congr fun q => and_congr_left' (term.values ρ q)⟩

/-! ### Extension -/

namespace Scoped

variable {α : Type} [Dimensional α] {x : Scoped α} {follows : Scoped α → Scoped α → Prop}

/-- The object moves to the larger environment exactly if that has its variables with their types,
and then follows the object that it was. -/
structure Extends (follows : Scoped α → Scoped α → Prop) (x : Scoped α) (f : Environment) : Prop where
  succeeds : (∃ y, x.extend f = .ok y) ↔ x.env.Within f
  result : ∀ y, x.extend f = .ok y → y.env = f ∧ follows x y
  missing : ∀ v, x.env.vars.find? (· ∉ f.vars) = some v → x.extend f = .error (.unknownVariable v)
  clashing : x.env.vars ⊆ f.vars → ¬ x.env.Within f →
    ∃ v, x.env.Clash f v ∧ x.extend f = .error (.incompatibleEnvironment v)

theorem extends_of_follows (he : x.env.IsValid) (hf : f.IsValid)
    (moved : ∀ c, Embeds c x.env f → follows x ⟨f, Dimensional.addDimensions x.item c⟩) :
    x.Extends follows f := by
  obtain ⟨missing, clashing, within⟩ := embed_cases he hf
  have fails {failure : Failure} (run : x.env.embed f = .error failure) :
      x.extend f = .error failure := by
    rw [extend, run]
    rfl
  have runs (inside : x.env.Within f) :
      ∃ c, x.extend f = .ok ⟨f, Dimensional.addDimensions x.item c⟩ ∧ Embeds c x.env f := by
    obtain ⟨c, run, embeds⟩ := within inside
    refine ⟨c, ?_, embeds⟩
    rw [extend, run]
    rfl
  have refuses (outside : ¬ x.env.Within f) : ∃ failure, x.extend f = .error failure := by
    cases first : x.env.vars.find? (· ∉ f.vars) with
    | some v => exact ⟨_, fails (missing v first)⟩
    | none =>
      obtain ⟨v, -, run⟩ := clashing (fun v mem => by simpa using find?_eq_none.1 first v mem) outside
      exact ⟨_, fails run⟩
  have succeeds : (∃ y, x.extend f = .ok y) ↔ x.env.Within f := by
    constructor
    · intro succeeds
      by_contra outside
      obtain ⟨y, run⟩ := succeeds
      obtain ⟨failure, refused⟩ := refuses outside
      simp [refused] at run
    · intro inside
      obtain ⟨c, run, -⟩ := runs inside
      exact ⟨_, run⟩
  refine ⟨succeeds, fun y run => ?_, fun v first => fails (missing v first),
    fun sub outside => (clashing sub outside).imp fun v h => ⟨h.1, fails h.2⟩⟩
  obtain ⟨c, run', embeds⟩ := runs (succeeds.1 ⟨y, run⟩)
  cases run.symm.trans run'
  exact ⟨rfl, moved c embeds⟩

def EachFollows (follows : Scoped α → Scoped α → Prop) (xs ys : Scoped (List α)) : Prop :=
  Forall₂ follows xs.items ys.items

theorem extends_list {xs : List α} (he : e.IsValid) (hf : f.IsValid)
    (inside : Dimensional.support xs ≤ e.size)
    (moved : ∀ c x, Embeds c e f → Dimensional.support x ≤ e.size →
      follows ⟨e, x⟩ ⟨f, Dimensional.addDimensions x c⟩) :
    Extends (EachFollows follows) ⟨e, xs⟩ f := by
  refine extends_of_follows he hf fun c embeds => ?_
  change Forall₂ follows (xs.map _) ((xs.map _).map _)
  rw [map_map, forall₂_map_left_iff, forall₂_map_right_iff, forall₂_same]
  exact fun x mem => moved c x embeds ((le_foldl_max Dimensional.support mem 0).trans inside)

end Scoped

open Scoped in
/-- Forms, terms, constraints and lists of constraints, all of whose dimensions are in their
environment, move to exactly those environments that have the variables with their types, and keep
their meaning there. -/
theorem extension_keeps_meaning (he : e.IsValid) (hf : f.IsValid) :
    (∀ a : LinearForm, a.support ≤ e.size → Extends LinearForm.Follows ⟨e, a⟩ f) ∧
    (∀ t : Term, t.support ≤ e.size → Extends Term.Follows ⟨e, t⟩ f) ∧
    (∀ a : LinearConstraint, a.form.support ≤ e.size →
      Extends LinearConstraint.Follows ⟨e, a⟩ f) ∧
    (∀ a : TermConstraint, a.term.support ≤ e.size → Extends TermConstraint.Follows ⟨e, a⟩ f) ∧
    (∀ as : List LinearConstraint, Dimensional.support as ≤ e.size →
      Extends (EachFollows LinearConstraint.Follows) ⟨e, as⟩ f) ∧
    ∀ as : List TermConstraint, Dimensional.support as ≤ e.size →
      Extends (EachFollows TermConstraint.Follows) ⟨e, as⟩ f :=
  ⟨fun _ inside => extends_of_follows he hf fun _ h =>
      LinearForm.follows_addDimensions he hf h inside,
    fun _ inside => extends_of_follows he hf fun _ h => Term.follows_addDimensions he hf h inside,
    fun _ inside => extends_of_follows he hf fun _ h =>
      LinearConstraint.follows_addDimensions he hf h inside,
    fun _ inside => extends_of_follows he hf fun _ h =>
      TermConstraint.follows_addDimensions he hf h inside,
    fun _ inside => extends_list he hf inside fun _ _ h =>
      LinearConstraint.follows_addDimensions he hf h,
    fun _ inside => extends_list he hf inside fun _ _ h =>
      TermConstraint.follows_addDimensions he hf h⟩

/-- A dense form without a coefficient for `y` moves behind `a`, and not to an environment where
`y` is an integer. -/
theorem short_form_extends :
    let a : Scoped LinearForm := ⟨⟨[], ["x", "y"]⟩,
      ⟨.zero .rational, .dense [.exact (.one .rational)]⟩⟩
    (∃ b, a.extend ⟨[], ["a", "x", "y"]⟩ = .ok b ∧ LinearForm.Follows a b ∧
      b.coefficient "x" = .ok (.exact (.one .rational))) ∧
    a.extend ⟨["y"], ["x"]⟩ = .error (.incompatibleEnvironment "y") := by
  intro a
  have valid : a.env.IsValid := ⟨by decide, by decide, by simp [a]⟩
  obtain ⟨forms, -⟩ := extension_keeps_meaning valid (f := ⟨[], ["a", "x", "y"]⟩)
    ⟨by decide, by decide, by simp⟩
  obtain ⟨succeeds, result, -, -⟩ := forms a.item (by decide)
  obtain ⟨b, run⟩ := succeeds.2 ⟨by decide, by decide⟩
  refine ⟨⟨b, run, (result b run).2, ?_⟩, by decide +kernel⟩
  cases run
  decide +kernel

end Enclosure
