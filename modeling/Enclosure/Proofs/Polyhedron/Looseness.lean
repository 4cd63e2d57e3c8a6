import Enclosure.Proofs.Constructions
import Enclosure.Proofs.Polyhedron.Constraints
import Enclosure.Proofs.Polyhedron.Widening

/-!
# Polyhedra without strict rows

In loose mode strict bounds are loosened when they are added, and no operation makes a row strict.
-/

namespace Enclosure

open List Op

namespace Rows

variable {rows : List Row} {col : Nat}

theorem loose_tidy (loose : ∀ r ∈ rows, r.strict = false) : ∀ r ∈ tidy rows, r.strict = false := by
  intro r mem
  cases contra : rows.any (·.isContradiction) with
  | true =>
    rw [tidy, contra, if_pos rfl, mem_singleton] at mem
    rw [mem]
    rfl
  | false =>
    obtain ⟨s, inRows, q, -, rfl⟩ := exists_of_mem_tidy mem contra
    exact loose s inRows

theorem loose_eliminate (loose : ∀ r ∈ rows, r.strict = false) :
    ∀ r ∈ eliminate col rows, r.strict = false := by
  apply loose_tidy
  intro r mem
  rcases mem_append.1 mem with other | pair
  · obtain ⟨s, inOthers, rfl⟩ := mem_map.1 other
    exact loose s (mem_of_mem_filter inOthers)
  · obtain ⟨s, upper, mapped⟩ := mem_flatMap.1 pair
    obtain ⟨t, lower, rfl⟩ := mem_map.1 mapped
    have first := loose s (mem_of_mem_filter upper)
    have second := loose t (mem_of_mem_filter lower)
    rw [Row.cancel, first, second]
    rfl

theorem yields_eliminateAll_loose (fuel : Nat) (keep : List Bool)
    (loose : ∀ r ∈ rows, r.strict = false) :
    Yields (eliminateAll fuel rows keep) fun result =>
      ∀ left, result = some left → ∀ r ∈ left, r.strict = false := by
  have kept : ∀ left, some rows = some left → ∀ r ∈ left, r.strict = false := by
    rintro _ ⟨⟩
    exact loose
  induction fuel generalizing rows keep with
  | zero => exact yields_pure kept
  | succ fuel ih =>
    rw [eliminateAll]
    split
    · exact yields_pure (by simp [Row.never])
    · split
      · exact yields_pure kept
      · split
        · exact ih _ loose kept
        · refine yields_bind fun tooLarge => ?_
          split
          · exact yields_pure (by simp)
          · refine ih _ (loose_eliminate loose) ?_
            rintro _ ⟨⟩
            exact loose_eliminate loose

theorem yields_project_loose (loose : ∀ r ∈ rows, r.strict = false) (keep : List Bool) :
    Yields (project rows keep) fun result =>
      ∀ left, result = some left → ∀ r ∈ left, r.strict = false :=
  yields_eliminateAll_loose _ _ (loose_tidy loose)

end Rows

namespace Polyhedron

variable {p a b : Polyhedron} {s : Space} {rows : List Row}

instance (p : Polyhedron) : Decidable p.IsLoose :=
  inferInstanceAs (Decidable (∀ r ∈ p.rows, r.strict = false))

instance (p : Polyhedron) (x : List Rat) : Decidable (p.Contains x) :=
  inferInstanceAs (Decidable (x.length = p.space.size ∧ ∀ r ∈ p.rows, r.holdsAt x = true))

theorem isLoose_of_make (loose : ∀ r ∈ rows, r.strict = false) (made : make s rows = .ok p) :
    p.IsLoose := by
  unfold make at made
  split at made
  · obtain rfl := Except.ok.inj made
    exact loose
  · cases made

theorem yields_make_isLoose (loose : ∀ r ∈ rows, r.strict = false) :
    Op.Yields (Op.ofExcept (make s rows)) IsLoose :=
  yields_ofExcept fun _ => isLoose_of_make loose

theorem isLoose_bottom (s : Space) : (bottom s).IsLoose := by
  simp [IsLoose, bottom, Row.never]

theorem isLoose_top (s : Space) : (top s).IsLoose := fun _ mem => by cases mem

theorem loose_append {more : List Row} (first : ∀ r ∈ rows, r.strict = false)
    (second : ∀ r ∈ more, r.strict = false) : ∀ r ∈ rows ++ more, r.strict = false :=
  forall_mem_append.2 ⟨first, second⟩

theorem loose_flatMap_zeroRows (n : Nat) (dims : List Nat) :
    ∀ r ∈ dims.flatMap (Row.zeroRows n), r.strict = false := by
  intro r mem
  obtain ⟨d, -, row⟩ := mem_flatMap.1 mem
  rcases mem_pair.1 row with rfl | rfl <;> rfl

/-! ### Constraints -/

theorem loose_rangeRows (n d : Nat) (lo hi : ExtRat) :
    ∀ r ∈ rangeRows n d lo hi, r.strict = false := by
  intro r mem
  rcases mem_append.1 mem with upper | lower
  · obtain ⟨h, -, rfl⟩ := Option.map_eq_some_iff.1 (Option.mem_toList.1 upper)
    rfl
  · obtain ⟨l, -, rfl⟩ := Option.map_eq_some_iff.1 (Option.mem_toList.1 lower)
    rfl

theorem loose_flatten_rowsFor (bs : List LinearBound) :
    ∀ r ∈ (bs.map (rowsFor false)).flatten, r.strict = false := by
  rw [← flatMap_def, forall_mem_flatMap]
  intro b _
  unfold rowsFor
  cases b.relation <;> simp [Row.flip]

theorem yields_relaxAll_loose (bounds : List Interval) (cs : List LinearConstraint) :
    Yields (relaxAll false bounds s cs) fun result =>
      ∀ rows, result = some rows → ∀ r ∈ rows, r.strict = false := by
  induction cs with
  | nil => exact yields_pure (by simp)
  | cons c cs ih =>
    refine yields_bind fun result => ?_
    cases result with
    | none => exact yields_pure (by simp)
    | some bs =>
      have rows : Yields (bs.mapM (rowsOf false)) (· = bs.map (rowsFor false)) := by
        rw [mapM_rowsOf]
        exact yields_markInexactIf (yields_pure rfl)
      refine rows.bind fun left same => ih.bind fun rest there => yields_pure fun all found => ?_
      subst same
      obtain ⟨left, rfl, rfl⟩ := Option.map_eq_some_iff.1 found
      exact loose_append (loose_flatten_rowsFor bs) (there left rfl)

theorem yields_meetLinear_isLoose (loose : p.IsLoose) (cs : List LinearConstraint) :
    Yields (p.meetLinear false cs) IsLoose := by
  have add (bounds : List Interval) : Yields (p.addConstraints false bounds cs) IsLoose := by
    refine (yields_relaxAll_loose bounds cs).bind fun result implied => ?_
    cases result with
    | none => exact yields_pure (isLoose_bottom _)
    | some rows =>
      exact yields_make_isLoose (Rows.loose_tidy (loose_append loose (implied rows rfl)))
  unfold meetLinear
  split
  · exact add _
  · refine yields_bind fun empty => ?_
    split
    · exact yields_pure loose
    · exact yields_bind fun bounds => add bounds

/-! ### Lattice operations -/

theorem yields_minimize_isLoose (loose : p.IsLoose) : Yields p.minimize IsLoose := by
  refine yields_of_ensures fun _ => (ensures_isMinimized p).mono fun q minimal => ?_
  rcases minimal.rows with rfl | subset
  · exact isLoose_bottom _
  · exact fun r mem => Rows.loose_tidy loose r (subset mem)

theorem loose_hullSystem (n : Nat) (first second : List Row) :
    ∀ r ∈ hullSystem n first second, r.strict = false := by
  intro r mem
  simp only [hullSystem, mem_append, mem_map, mem_cons, not_mem_nil, or_false] at mem
  rcases mem with (⟨t, -, rfl⟩ | ⟨t, -, rfl⟩) | rfl | rfl <;> rfl

theorem yields_join_isLoose (looseA : a.IsLoose) (looseB : b.IsLoose) :
    Yields (a.join b) IsLoose := by
  refine yields_bind fun _ => yields_bind fun within => ?_
  split
  · exact yields_pure looseB
  refine yields_bind fun above => ?_
  split
  · exact yields_pure looseA
  refine yields_bind fun _ => ?_
  refine (Rows.yields_project_loose (loose_hullSystem _ _ _) _).bind fun result rows => ?_
  cases result with
  | none => exact yields_pure (isLoose_top _)
  | some left =>
    exact (yields_make_isLoose (rows left rfl)).bind fun hull loose => yields_minimize_isLoose loose

/-! ### Dimensions -/

theorem yields_addDimensions_isLoose (loose : p.IsLoose) (c : SpaceChange) (project : Bool) :
    Yields (p.addDimensions c project) IsLoose := by
  have old : ∀ r ∈ p.rows.map fun r => { r with coeffs := c.insertInto 0 r.coeffs },
      r.strict = false := forall_mem_map.2 loose
  unfold addDimensions
  split
  · refine yields_bind fun added => ?_
    split
    · exact yields_fail _
    · exact yields_make_isLoose (loose_append old (loose_flatMap_zeroRows _ _))
  · exact yields_make_isLoose old

theorem yields_removeDimensions_isLoose (loose : p.IsLoose) (c : SpaceChange) :
    Yields (p.removeDimensions c) IsLoose := by
  unfold removeDimensions
  split
  · exact yields_fail _
  refine yields_bind fun s => (Rows.yields_project_loose loose _).bind fun result rows => ?_
  cases result with
  | none => exact yields_pure (isLoose_top _)
  | some left => exact yields_make_isLoose (rows left rfl)

theorem loose_of_mapM_permute {perm : Permutation} {left : List Row}
    (loose : ∀ r ∈ rows, r.strict = false)
    (run : rows.mapM (fun r : Row => return { r with coeffs := ← perm.permute r.coeffs }) =
      Except.ok left) : ∀ r ∈ left, r.strict = false := by
  induction rows generalizing left with
  | nil =>
    cases run
    simp
  | cons r rows ih =>
    obtain ⟨here, there⟩ := forall_mem_cons.1 loose
    rw [mapM_cons] at run
    obtain ⟨_, permuted, run⟩ := exists_ok_of_bind run
    obtain ⟨_, others, same⟩ := exists_ok_of_bind run
    obtain ⟨_, -, row⟩ := exists_ok_of_bind permuted
    cases row
    cases same
    exact forall_mem_cons.2 ⟨here, ih there others⟩

theorem yields_permuteDimensions_isLoose (loose : p.IsLoose) (perm : Permutation) :
    Yields (p.permuteDimensions perm) IsLoose := by
  unfold permuteDimensions
  split
  · exact yields_fail _
  · refine yields_ofExcept fun q run => ?_
    obtain ⟨_, permuted, made⟩ := exists_ok_of_bind run
    exact isLoose_of_make (loose_of_mapM_permute loose permuted) made

section

variable (loose : p.IsLoose) (dims : List Nat)
include loose dims

theorem yields_forget_isLoose (project : Bool) : Op.Yields (p.forget dims project) IsLoose := by
  have rest (keep : List Bool) : Yields (forgetRows p.rows keep) fun rows =>
      ∀ r ∈ rows, r.strict = false := by
    refine (Rows.yields_project_loose loose keep).bind fun result rows => ?_
    cases result with
    | none => exact yields_pure (by simp)
    | some left => exact yields_pure (forall_mem_map.2 (rows left rfl))
  unfold forget
  dsimp only
  split
  · exact yields_fail _
  refine yields_bind fun empty => ?_
  split
  · exact Op.yields_pure loose
  refine (rest _).bind fun rows left => yields_make_isLoose (Rows.loose_tidy ?_)
  split
  · exact loose_append left (loose_flatMap_zeroRows _ _)
  · exact loose_append left (by simp)

theorem yields_assignByFresh_isLoose (forms : List LinearForm) :
    Yields ((core false).assignByFresh p dims forms) IsLoose := by
  refine DomainCore.yields_assignByFresh ?_
    (fun _ cs loose => yields_meetLinear_isLoose loose cs)
    (fun _ loose => yields_forget_isLoose loose _ _)
    (fun _ perm _ loose => yields_permuteDimensions_isLoose loose perm)
    (fun _ loose => yields_removeDimensions_isLoose loose _) forms
  exact yields_addDimensions_isLoose loose (.append p.space.size dims.length) false

end

theorem keeps_isLoose (admitted : Construction Polyhedron → Prop) :
    (domain false).Keeps admitted IsLoose where
  top := isLoose_top
  bottom := isLoose_bottom
  ofBox s is _ := by
    unfold domain core ofIntervals
    dsimp only
    split
    · exact yields_fail _
    split
    · exact yields_pure (isLoose_bottom s)
    · refine yields_make_isLoose (Rows.loose_tidy fun r mem => ?_)
      obtain ⟨e, -, row⟩ := mem_flatMap.1 mem
      split at row <;> exact loose_rangeRows _ _ _ _ r row
  meet _ _ looseA looseB :=
    yields_bind fun _ => yields_make_isLoose (Rows.loose_tidy (loose_append looseA looseB))
  meetLinear _ cs loose := yields_meetLinear_isLoose loose cs
  join _ _ looseA looseB := yields_join_isLoose looseA looseB
  widening _ _ looseA looseB := by
    refine yields_bind fun _ => yields_bind fun emptyA => ?_
    split
    · exact yields_pure looseB
    refine yields_bind fun emptyB => ?_
    split
    · exact yields_pure looseA
    refine (yields_minimize_isLoose looseA).bind fun first loose => ?_
    refine (yields_minimize_isLoose looseB).bind fun second loose' => ?_
    refine (yields_filterM first.rows).bind fun kept old => ?_
    have stable : Yields (second.rows.foldlM (keepIfStable first.rows) kept) fun all =>
        ∀ r ∈ all, r.strict = false := by
      refine yields_foldlM second.rows kept (fun r mem => loose r (old r mem)) ?_
      intro all c mem sofar
      unfold keepIfStable
      split
      · exact yields_pure sofar
      refine yields_bind fun implied => ?_
      split
      · exact yields_pure sofar
      refine yields_bind fun replaces => ?_
      split
      · exact yields_pure (loose_append sofar (by simpa using loose' c mem))
      · exact yields_pure sofar
    exact stable.bind fun all rows => yields_make_isLoose (Rows.loose_tidy rows)
  addDimensions _ c project _ loose := yields_addDimensions_isLoose loose c project
  removeDimensions _ c _ loose := yields_removeDimensions_isLoose loose c
  permuteDimensions _ perm _ loose := yields_permuteDimensions_isLoose loose perm
  forget _ dims project loose := yields_forget_isLoose loose dims project
  assignForms _ dims forms _ loose := yields_assignByFresh_isLoose loose dims forms
  assignTerms _ dims _ _ loose :=
    yields_bind (yields_assignByFresh_isLoose loose dims)
  substituteForms p dims forms loose := by
    refine Domain.yields_substituteForms ?_
      (fun _ perm _ loose => yields_permuteDimensions_isLoose loose perm)
      (fun _ cs loose => yields_meetLinear_isLoose loose cs)
      (fun _ loose => yields_removeDimensions_isLoose loose _) forms
    exact yields_addDimensions_isLoose loose (.append p.space.size dims.length) false

end Polyhedron

end Enclosure
