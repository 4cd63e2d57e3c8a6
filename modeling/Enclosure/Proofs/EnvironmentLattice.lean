import Enclosure.Proofs.Environments

/-!
# Environments ordered by inclusion

The lists of a valid environment are sorted, so that it is known by its members.
-/

namespace Enclosure

open List

namespace Environment

variable {a b c e f p q u w : Environment} {v : String} {ints reals names : List String}

theorem IsValid.ext (ha : a.IsValid) (hb : b.IsValid) (ints : ∀ v, v ∈ a.ints ↔ v ∈ b.ints)
    (reals : ∀ v, v ∈ a.reals ↔ v ∈ b.reals) : a = b := by
  exact (Environment.mk.injEq ..).mpr
    ⟨ha.ints.eq_of_mem_iff hb.ints ints, ha.reals.eq_of_mem_iff hb.reals reals⟩

/-! ### Inclusion -/

theorem Within.refl (e : Environment) : e.Within e := ⟨.refl _, .refl _⟩

theorem Within.trans (h : a.Within b) (h' : b.Within c) : a.Within c :=
  ⟨Subset.trans h.ints h'.ints, Subset.trans h.reals h'.reals⟩

theorem Within.antisymm (ha : a.IsValid) (hb : b.IsValid) (h : a.Within b) (h' : b.Within a) :
    a = b :=
  ha.ext hb (fun _ => ⟨@h.ints _, @h'.ints _⟩) fun _ => ⟨@h.reals _, @h'.reals _⟩

theorem Within.not_clash (h : a.Within b) (hb : b.IsValid) (v : String) : ¬ a.Clash b v := by
  rintro (⟨integer, real⟩ | ⟨real, integer⟩)
  · exact hb.disjoint (h.ints integer) real
  · exact hb.disjoint integer (h.reals real)

theorem Clash.symm (h : a.Clash b v) : b.Clash a v := by
  unfold Clash at h ⊢
  tauto

theorem within_iff_of_not_clash (agree : ∀ v, ¬ a.Clash b v) : a.Within b ↔ a.vars ⊆ b.vars := by
  refine ⟨Within.vars, fun sub => ⟨fun v mem => ?_, fun v mem => ?_⟩⟩
  · exact (mem_vars.1 (sub (mem_vars.2 (.inl mem)))).resolve_right fun real =>
      agree v (.inl ⟨mem, real⟩)
  · exact (mem_vars.1 (sub (mem_vars.2 (.inr mem)))).resolve_left fun integer =>
      agree v (.inr ⟨mem, integer⟩)

theorem all_contains_iff : a.vars.all b.contains = true ↔ a.vars ⊆ b.vars := by
  simp [subset_def]

section

variable (ha : a.IsValid) (hb : b.IsValid)
include ha hb

theorem inclusion_cases :
    (∃ v, a.Clash b v) ∧ a.inclusion b = .incompatible ∨
      a.Within b ∧ b.Within a ∧ a.inclusion b = .equal ∨
      a.Within b ∧ ¬ b.Within a ∧ a.inclusion b = .subset ∨
      ¬ a.Within b ∧ b.Within a ∧ a.inclusion b = .superset ∨
      ¬ a.Within b ∧ ¬ b.Within a ∧ a.inclusion b = .incomparable := by
  by_cases agree : ∀ v, ¬ a.Clash b v
  · -- the two loops over the names decide inclusion, now that the types agree
    have none : a.vars.any (clashes a b) = false := by
      simpa [clashes_iff ha hb] using fun v _ => agree v
    have left := (within_iff_of_not_clash agree).trans all_contains_iff.symm
    have right := (within_iff_of_not_clash fun v clash => agree v clash.symm).trans
      all_contains_iff.symm
    rw [left, right, inclusion, none]
    cases a.vars.all b.contains <;> cases b.vars.all a.contains <;> simp
  · left
    obtain ⟨v, clash⟩ := not_forall_not.1 agree
    refine ⟨⟨v, clash⟩, ?_⟩
    have known : v ∈ a.vars := mem_vars.2 (clash.imp And.left And.left)
    have some : a.vars.any (clashes a b) = true :=
      any_eq_true.2 ⟨v, known, (clashes_iff ha hb).2 clash⟩
    rw [inclusion, some, if_pos rfl]

theorem inclusion_spec :
    (a.inclusion b = .subset ↔ a.Within b ∧ ¬ b.Within a) ∧
      (a.inclusion b = .equal ↔ a.Within b ∧ b.Within a) ∧
      (a.inclusion b = .superset ↔ b.Within a ∧ ¬ a.Within b) := by
  rcases inclusion_cases ha hb with ⟨⟨v, clash⟩, is⟩ | ⟨l, r, is⟩ | ⟨l, r, is⟩ | ⟨l, r, is⟩ |
    ⟨l, r, is⟩
  · have left : ¬ a.Within b := fun within => within.not_clash hb v clash
    have right : ¬ b.Within a := fun within => within.not_clash ha v clash.symm
    simp [is, left, right]
  all_goals simp [is, l, r]

theorem inclusion_eq_equal_iff : a.inclusion b = .equal ↔ a = b :=
  (inclusion_spec ha hb).2.1.trans
    ⟨fun both => both.1.antisymm ha hb both.2, fun same => same ▸ ⟨.refl a, .refl a⟩⟩

theorem inclusion_eq_subset_iff : a.inclusion b = .subset ↔ a.Within b ∧ a ≠ b := by
  rw [(inclusion_spec ha hb).1]
  refine and_congr_right fun within => not_congr ⟨(within.antisymm ha hb), ?_⟩
  exact fun same => same ▸ .refl a

theorem inclusion_eq_superset_iff : a.inclusion b = .superset ↔ b.inclusion a = .subset :=
  (inclusion_spec ha hb).2.2.trans (inclusion_spec hb ha).1.symm

end

theorem order?_spec (i : Inclusion) : (i.order? = some .lt ↔ i = .subset) ∧
    (i.order? = some .eq ↔ i = .equal) ∧ (i.order? = some .gt ↔ i = .superset) := by
  cases i <;> simp [Inclusion.order?]

/-! ### Unions -/

theorem IsUnion.symm (h : IsUnion a b u) : IsUnion b a u :=
  ⟨h.valid, fun v => (h.ints v).trans or_comm, fun v => (h.reals v).trans or_comm⟩

theorem IsUnion.eq (h : IsUnion a b u) (h' : IsUnion a b w) : u = w :=
  h.valid.ext h'.valid (fun v => (h.ints v).trans (h'.ints v).symm) fun v =>
    (h.reals v).trans (h'.reals v).symm

theorem IsUnion.not_clash (h : IsUnion a b u) (v : String) : ¬ a.Clash b v := by
  rintro (⟨integer, real⟩ | ⟨real, integer⟩)
  · exact h.valid.disjoint (h.left.ints integer) (h.right.reals real)
  · exact h.valid.disjoint (h.right.ints integer) (h.left.reals real)

theorem union_eq_ok_iff (ha : a.IsValid) (hb : b.IsValid) : a.union b = .ok u ↔ IsUnion a b u := by
  rcases union_cases ha hb with ⟨v, clash, fails⟩ | ⟨-, w, united, union⟩
  · rw [fails]
    exact iff_of_false (by simp) fun h => h.not_clash v clash
  · rw [united]
    exact ⟨fun same => Except.ok.inj same ▸ union, fun h => congrArg _ (union.eq h)⟩

theorem IsUnion.assoc_iff (left : IsUnion a b p) (right : IsUnion b c q) :
    IsUnion p c u ↔ IsUnion a q u := by
  have ints (v : String) : v ∈ p.ints ∨ v ∈ c.ints ↔ v ∈ a.ints ∨ v ∈ q.ints := by
    rw [left.ints, right.ints, or_assoc]
  have reals (v : String) : v ∈ p.reals ∨ v ∈ c.reals ↔ v ∈ a.reals ∨ v ∈ q.reals := by
    rw [left.reals, right.reals, or_assoc]
  refine ⟨fun h => ⟨h.valid, ?_, ?_⟩, fun h => ⟨h.valid, ?_, ?_⟩⟩
  · exact fun v => (h.ints v).trans (ints v)
  · exact fun v => (h.reals v).trans (reals v)
  · exact fun v => (h.ints v).trans (ints v).symm
  · exact fun v => (h.reals v).trans (reals v).symm

/-! ### Adding and removing -/

theorem Within.eq_of_vars (hf : f.IsValid) (ha : a.IsValid) (hb : b.IsValid) (left : a.Within f)
    (right : b.Within f) (same : ∀ v, v ∈ a.vars ↔ v ∈ b.vars) : a = b := by
  obtain ⟨leftInts, leftReals⟩ := left.mem_vars_iff hf
  obtain ⟨rightInts, rightReals⟩ := right.mem_vars_iff hf
  refine ha.ext hb (fun v => ⟨fun mem => ?_, fun mem => ?_⟩) fun v => ⟨fun mem => ?_, fun mem => ?_⟩
  · exact (rightInts v (left.ints mem)).1 ((same v).1 (mem_vars.2 (.inl mem)))
  · exact (leftInts v (right.ints mem)).1 ((same v).2 (mem_vars.2 (.inl mem)))
  · exact (rightReals v (left.reals mem)).1 ((same v).1 (mem_vars.2 (.inr mem)))
  · exact (leftReals v (right.reals mem)).1 ((same v).2 (mem_vars.2 (.inr mem)))

theorem IsValid.isInt_iff {d : Nat} (valid : e.IsValid) (found : e.vars[d]? = some v) :
    e.space.isInt d = true ↔ v ∈ e.ints := by
  rw [← isInt?_eq_true_iff, isInt?,
    valid.dimension?_eq_some_iff.2 found, Option.map_some, Option.some_inj]

theorem remove_of_add (he : e.IsValid) (fresh : ∀ v ∈ ints ++ reals, v ∉ e.vars)
    (distinct : (ints ++ reals).Nodup) :
    ∃ f, e.add ints reals = .ok f ∧ f.remove (ints ++ reals) = .ok e := by
  -- the names are added type by type, and nothing repeats across the types
  have nodup : ((e.ints ++ ints) ++ (e.reals ++ reals)).Nodup := by
    have perm : ((e.ints ++ ints) ++ (e.reals ++ reals)).Perm (e.vars ++ (ints ++ reals)) := by
      simp only [vars, append_assoc]
      exact (perm_append_comm_assoc ..).append_left _
    refine perm.nodup_iff.2 (nodup_append'.2 ⟨he.nodup, distinct, ?_⟩)
    exact fun v old new => fresh v new old
  obtain ⟨f, made⟩ : ∃ f, e.add ints reals = .ok f := ⟨_, make_eq_ok_iff.2 ⟨nodup, rfl⟩⟩
  obtain ⟨hi, hr⟩ := mem_of_make made
  have hf := isValid_of_make made
  have all (v : String) : v ∈ f.vars ↔ v ∈ e.vars ∨ v ∈ ints ++ reals := by
    simp only [mem_vars, hi, hr, mem_append]
    tauto
  have within : e.Within f :=
    ⟨fun v mem => (hi v).2 (mem_append_left _ mem), fun v mem => (hr v).2 (mem_append_left _ mem)⟩
  obtain ⟨g, removed, hg, part, left⟩ := remove_spec hf fun v mem => (all v).2 (.inr mem)
  have same (v : String) : v ∈ g.vars ↔ v ∈ e.vars := by
    rw [left, all, or_and_right, and_not_self_iff, or_false, and_iff_left_iff_imp]
    exact fun old new => fresh v new old
  exact ⟨f, made, removed.trans (congrArg _ (part.eq_of_vars hf hg he within same))⟩

/-! ### Built environments -/

/-- Environments that are made of names, or by enlarging, reducing, renaming or uniting others. -/
inductive Built : Environment → Prop
  | make {ints reals : List String} {e : Environment} : make ints reals = .ok e → Built e
  | add {ints reals : List String} {e f : Environment} :
      Built e → e.add ints reals = .ok f → Built f
  | remove {names : List String} {e f : Environment} : Built e → e.remove names = .ok f → Built f
  | rename {old new : List String} {e f : Environment} {p : Permutation} :
      Built e → e.rename old new = .ok (f, p) → Built f
  | union {a b u : Environment} : Built a → Built b → a.union b = .ok u → Built u

theorem isValid_of_remove (he : e.IsValid) (removed : e.remove names = .ok f) : f.IsValid := by
  obtain ⟨known, -⟩ := remove_eq_ok_iff.1 removed
  obtain ⟨g, removed', hg, -⟩ := remove_spec he known
  exact Except.ok.inj (removed'.symm.trans removed) ▸ hg

theorem Built.isValid (h : Built e) : e.IsValid := by
  induction h with
  | make made => exact isValid_of_make made
  | add _ added _ => exact isValid_of_make added
  | remove _ removed ih => exact isValid_of_remove ih removed
  | rename _ renamed _ => exact isValid_of_make (rename_eq_ok_iff.1 renamed).2.2.1
  | union _ _ united left right => exact ((union_eq_ok_iff left right).1 united).valid

/-- Unions exist unless a variable clashes, are least, and depend neither on order nor on
grouping. -/
structure UnionLaws : Prop where
  exists_iff : ∀ a b : Environment, a.IsValid → b.IsValid →
    ((∃ u, a.union b = .ok u) ↔ ∀ v, ¬ a.Clash b v)
  least : ∀ a b u : Environment, a.IsValid → b.IsValid → a.union b = .ok u →
    u.IsValid ∧ a.Within u ∧ b.Within u ∧ ∀ w, a.Within w → b.Within w → u.Within w
  comm : ∀ a b u : Environment, a.IsValid → b.IsValid → (a.union b = .ok u ↔ b.union a = .ok u)
  assoc : ∀ a b c p q u : Environment, a.IsValid → b.IsValid → c.IsValid →
    a.union b = .ok p → b.union c = .ok q → (p.union c = .ok u ↔ a.union q = .ok u)
  idem : ∀ a : Environment, a.IsValid → a.union a = .ok a

/-- Comparisons tell typed inclusion, and order environments partially. -/
structure InclusionLaws : Prop where
  subset_iff : ∀ a b : Environment, a.IsValid → b.IsValid →
    (a.inclusion b = .subset ↔ a.Within b ∧ a ≠ b)
  equal_iff : ∀ a b : Environment, a.IsValid → b.IsValid →
    (a.inclusion b = .equal ↔ a.Within b ∧ b.Within a)
  superset_iff : ∀ a b : Environment, a.IsValid → b.IsValid →
    (a.inclusion b = .superset ↔ b.Within a ∧ a ≠ b)
  order_eq_iff : ∀ a b : Environment, a.IsValid → b.IsValid →
    ((a.inclusion b).order? = some .eq ↔ a = b)
  order_dual : ∀ a b : Environment, a.IsValid → b.IsValid →
    ((a.inclusion b).order? = some .lt ↔ (b.inclusion a).order? = some .gt)
  order_trans : ∀ a b c : Environment, a.IsValid → b.IsValid → c.IsValid →
    (a.inclusion b).order? = some .lt → (b.inclusion c).order? = some .lt →
      (a.inclusion c).order? = some .lt

theorem unionLaws : UnionLaws where
  exists_iff a b ha hb := by
    constructor
    · rintro ⟨u, united⟩
      exact ((union_eq_ok_iff ha hb).1 united).not_clash
    · intro agree
      rcases union_cases ha hb with ⟨v, clash, -⟩ | ⟨-, u, united, -⟩
      · exact absurd clash (agree v)
      · exact ⟨u, united⟩
  least a b u ha hb united := by
    have union := (union_eq_ok_iff ha hb).1 united
    exact ⟨union.valid, union.left, union.right, fun w left right =>
      ⟨fun v mem => ((union.ints v).1 mem).elim (@left.ints v) (@right.ints v),
        fun v mem => ((union.reals v).1 mem).elim (@left.reals v) (@right.reals v)⟩⟩
  comm a b u ha hb := by
    rw [union_eq_ok_iff ha hb, union_eq_ok_iff hb ha]
    exact ⟨.symm, .symm⟩
  assoc a b c p q u ha hb hc left right := by
    have left := (union_eq_ok_iff ha hb).1 left
    have right := (union_eq_ok_iff hb hc).1 right
    rw [union_eq_ok_iff left.valid hc, union_eq_ok_iff ha right.valid, left.assoc_iff right]
  idem a ha :=
    (union_eq_ok_iff ha ha).2 ⟨ha, fun _ => or_self_iff.symm, fun _ => or_self_iff.symm⟩

theorem inclusionLaws : InclusionLaws where
  subset_iff a b ha hb := inclusion_eq_subset_iff ha hb
  equal_iff a b ha hb := (inclusion_spec ha hb).2.1
  superset_iff a b ha hb := by
    rw [inclusion_eq_superset_iff ha hb, inclusion_eq_subset_iff hb ha, ne_comm]
  order_eq_iff a b ha hb := (order?_spec _).2.1.trans (inclusion_eq_equal_iff ha hb)
  order_dual a b ha hb := by
    rw [(order?_spec _).1, (order?_spec _).2.2, inclusion_eq_superset_iff hb ha]
  order_trans a b c ha hb hc := by
    rw [(order?_spec _).1, (order?_spec _).1, (order?_spec _).1]
    intro h h'
    obtain ⟨left, proper⟩ := (inclusion_spec ha hb).1.1 h
    obtain ⟨right, -⟩ := (inclusion_spec hb hc).1.1 h'
    exact (inclusion_spec ha hc).1.2 ⟨left.trans right, fun back => proper (right.trans back)⟩

/-- However an environment is built, its lists are sorted and share nothing, and dimensions and
variables are inverse to each other. -/
theorem built_environments_form_partial_lattice :
    (∀ e, Built e → e.IsValid ∧ ∀ v d, e.dimension? v = some d ↔ e.var? d = some v) ∧
    UnionLaws ∧ InclusionLaws ∧
    ∀ (e : Environment) (vs ws : List String), e.IsValid → (∀ v ∈ vs ++ ws, v ∉ e.vars) →
      (vs ++ ws).Nodup → ∃ f, e.add vs ws = .ok f ∧ f.remove (vs ++ ws) = .ok e :=
  ⟨fun _ h => ⟨h.isValid, fun _ _ => h.isValid.dimension?_eq_some_iff⟩, unionLaws, inclusionLaws,
    fun _ _ _ he fresh distinct => remove_of_add he fresh distinct⟩

/-- Two environments of which one is part of the other, and a third one that types a variable
differently. -/
theorem lattice_of_made_environments :
    let a : Environment := ⟨["i"], ["x"]⟩
    let b : Environment := ⟨["i"], ["a", "x"]⟩
    let c : Environment := ⟨[], ["i"]⟩
    (Built a ∧ Built b ∧ Built c) ∧ (b.dimension? "x" = some 2 ∧ b.var? 2 = some "x") ∧
    ((∃ u, a.union b = .ok u) ∧ ¬ ∃ u, a.union c = .ok u) ∧
    ((a.inclusion b).order? = some .lt ∧ (b.inclusion a).order? = some .gt) ∧
    ∃ f, a.add [] ["a"] = .ok f ∧ f.remove ["a"] = .ok a := by
  intro a b c
  have madeA : make ["i"] ["x"] = .ok a := rfl
  have addedB : a.add [] ["a"] = .ok b := rfl
  have madeC : make [] ["i"] = .ok c := rfl
  have built : Built a ∧ Built b ∧ Built c := ⟨.make madeA, .add (.make madeA) addedB, .make madeC⟩
  obtain ⟨valid, unions, inclusions, back⟩ := built_environments_form_partial_lattice
  obtain ⟨ha, -⟩ := valid a built.1
  obtain ⟨hb, dims⟩ := valid b built.2.1
  obtain ⟨hc, -⟩ := valid c built.2.2
  have within : a.Within b := ⟨by decide, by decide⟩
  have less : (a.inclusion b).order? = some .lt := by decide
  refine ⟨built, ⟨by decide, (dims "x" 2).1 (by decide)⟩,
    ⟨(unions.exists_iff a b ha hb).2 (within.not_clash hb), fun united => ?_⟩,
    ⟨less, (inclusions.order_dual a b ha hb).1 less⟩, back a [] ["a"] ha (by decide) (by decide)⟩
  exact (unions.exists_iff a c ha hc).1 united "i" (.inl ⟨by decide, by decide⟩)

end Environment

end Enclosure
