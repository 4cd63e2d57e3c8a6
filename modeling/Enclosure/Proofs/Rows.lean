import Enclosure.Domain.Polyhedron.Row
import Enclosure.Proofs.Vectors
import Mathlib.Tactic.Positivity

/-!
# Solutions of systems of rows

A vector solves a system if it satisfies each of its rows.
-/

namespace Enclosure

open List Row

def Under (strict : Bool) (a b : Rat) : Prop := if strict then a < b else a ≤ b

theorem ratAbs_eq (q : Rat) : q.abs = |q| := by
  unfold Rat.abs
  split
  · exact (abs_of_nonneg ‹_›).symm
  · exact (abs_of_neg (not_le.mp ‹_›)).symm

section Under

variable {s t : Bool} {a b c : Rat}

theorem Under.le (h : Under s a b) : a ≤ b := by
  cases s
  · exact h
  · exact le_of_lt h

theorem under_of_lt (h : a < b) : Under s a b := by
  cases s
  · exact h.le
  · exact h

theorem Under.trans (h : Under s a b) (h' : Under t b c) : Under (s || t) a c := by
  cases s <;> cases t
  · exact le_trans h h'
  · exact lt_of_le_of_lt h h'
  · exact lt_of_lt_of_le h h'
  · exact lt_trans h h'

theorem not_under : ¬ Under s a b ↔ Under (!s) b a := by
  cases s <;> simp [Under]

theorem under_mul_right (pos : 0 < c) : Under s (a * c) (b * c) ↔ Under s a b := by
  cases s
  · exact mul_le_mul_iff_of_pos_right pos
  · exact mul_lt_mul_iff_of_pos_right pos

theorem under_div_right (pos : 0 < c) : Under s (a / c) (b / c) ↔ Under s a b := by
  simpa only [div_eq_mul_inv] using under_mul_right (inv_pos.mpr pos)

theorem under_neg : Under s (-a) (-b) ↔ Under s b a := by
  cases s <;> simp [Under]

theorem under_sub_right : Under s a (b - c) ↔ Under s (c + a) b := by
  cases s
  · exact le_sub_iff_add_le'
  · exact lt_sub_iff_add_lt'

theorem under_iff_of_sub_eq {d : Rat} (h : b - a = d - c) : Under s a b ↔ Under s c d := by
  cases s
  · change a ≤ b ↔ c ≤ d
    rw [← sub_nonneg, h, sub_nonneg]
  · change a < b ↔ c < d
    rw [← sub_pos, h, sub_pos]

end Under

namespace Row

variable {r : Row} {x : List Rat}

theorem holdsAt_iff : r.holdsAt x = true ↔ Under r.strict (dot r.coeffs x) r.bound := by
  unfold holdsAt Under
  cases r.strict <;> simp

theorem holdsAt_negate : r.negate.holdsAt x = true ↔ ¬ r.holdsAt x = true := by
  rw [holdsAt_iff, holdsAt_iff, not_under]
  change Under (!r.strict) (dot (r.coeffs.map (- ·)) x) (-r.bound) ↔ _
  rw [dot_map_neg, under_neg]

theorem not_holdsAt_of_isContradiction (h : r.isContradiction = true) (x : List Rat) :
    ¬ r.holdsAt x = true := by
  simp only [isContradiction, Bool.and_eq_true, Bool.or_eq_true, decide_eq_true_eq] at h
  rw [holdsAt_iff, dot_of_allZero h.1]
  intro holds
  rcases h.2 with negative | ⟨strict, zero⟩
  · exact absurd holds.le (not_le.mpr negative)
  · rw [strict, zero] at holds
    exact lt_irrefl _ holds

theorem holdsAt_of_isConstant (constant : r.isConstant = true)
    (h : r.isContradiction = false) (x : List Rat) : r.holdsAt x = true := by
  simp only [isContradiction, constant, Bool.true_and, Bool.or_eq_false_iff,
    decide_eq_false_iff_not, not_lt] at h
  rw [holdsAt_iff, dot_of_allZero constant]
  rcases h.1.lt_or_eq with positive | zero
  · exact under_of_lt positive
  · have loose : r.strict = false := by simpa [← zero] using h.2
    rw [loose, ← zero]
    exact le_refl _

theorem exists_not_holdsAt (matters : r.isConstant = false) :
    ∃ x, x.length = r.coeffs.length ∧ ¬ r.holdsAt x = true := by
  obtain ⟨x, length, value⟩ := exists_dot_eq matters (r.bound + 1)
  refine ⟨x, length, fun holds => ?_⟩
  rw [holdsAt_iff, value] at holds
  exact absurd holds.le (by simp)

@[simp]
theorem isContradiction_never (n : Nat) : (never n).isContradiction = true := by
  simp [isContradiction, isConstant, never, allZero]

theorem not_holdsAt_never (n : Nat) (x : List Rat) : ¬ (never n).holdsAt x = true :=
  not_holdsAt_of_isContradiction (isContradiction_never n) x

theorem holdsAt_divide {q : Rat} (pos : 0 < q) :
    (r.divide q).holdsAt x = true ↔ r.holdsAt x = true := by
  rw [holdsAt_iff, holdsAt_iff]
  change Under r.strict (dot (r.coeffs.map (· / q)) x) (r.bound / q) ↔ _
  rw [dot_map_div, under_div_right pos]

theorem normalize?_eq_some {s : Row} (h : r.normalize? = some s) : ∃ q, 0 < q ∧ s = r.divide q := by
  obtain ⟨q, found, rfl⟩ := Option.map_eq_some_iff.1 h
  have nonzero : q ≠ 0 := by simpa using find?_some found
  exact ⟨q.abs, by simpa [ratAbs_eq] using nonzero, rfl⟩

/-! ### The order of rows -/

theorem orderOfCoeffs_eq (xs ys : List Rat) :
    orderOfCoeffs xs ys = if xs < ys then .lt else if ys < xs then .gt else .eq := by
  induction xs generalizing ys with
  | nil => cases ys <;> simp [orderOfCoeffs]
  | cons x xs ih =>
    cases ys with
    | nil => simp [orderOfCoeffs]
    | cons y ys =>
      rw [orderOfCoeffs, ih]
      rcases lt_trichotomy x y with less | rfl | greater
      · simp [cons_lt_cons_iff, less]
      · simp
      · simp [cons_lt_cons_iff, greater, greater.ne']

theorem precedes_iff {s : Row} : r.precedes s = true ↔
    r.coeffs < s.coeffs ∨ r.coeffs = s.coeffs ∧
      (r.bound < s.bound ∨ r.bound = s.bound ∧ (s.strict = true → r.strict = true)) := by
  unfold precedes
  rw [orderOfCoeffs_eq]
  rcases lt_trichotomy r.coeffs s.coeffs with less | same | greater
  · simp [less]
  · rcases lt_trichotomy r.bound s.bound with tighter | equal | looser
    · simp [same, tighter]
    · cases hr : r.strict <;> cases hs : s.strict <;> simp [same, equal]
    · simp [same, looser, looser.ne']
  · simp [greater, greater.not_gt, greater.ne']

theorem precedes_trans (r s t : Row) (h : r.precedes s = true) (h' : s.precedes t = true) :
    r.precedes t = true := by
  rw [precedes_iff] at *
  rcases h with less | ⟨same, h⟩
  · rcases h' with less' | ⟨same', -⟩
    · exact .inl (less.trans less')
    · exact .inl (same' ▸ less)
  · rcases h' with less' | ⟨same', h'⟩
    · exact .inl (same ▸ less')
    · refine .inr ⟨same.trans same', ?_⟩
      rcases h with tighter | ⟨equal, strict⟩
      · rcases h' with tighter' | ⟨equal', -⟩
        · exact .inl (tighter.trans tighter')
        · exact .inl (equal' ▸ tighter)
      · rcases h' with tighter' | ⟨equal', strict'⟩
        · exact .inl (equal ▸ tighter')
        · exact .inr ⟨equal.trans equal', fun h => strict (strict' h)⟩

theorem precedes_total (r s : Row) : (r.precedes s || s.precedes r) = true := by
  rw [Bool.or_eq_true, precedes_iff, precedes_iff]
  rcases lt_trichotomy r.coeffs s.coeffs with less | same | greater
  · exact .inl (.inl less)
  · rcases lt_trichotomy r.bound s.bound with tighter | equal | looser
    · exact .inl (.inr ⟨same, .inl tighter⟩)
    · cases hr : r.strict
      · exact .inr (.inr ⟨same.symm, .inr ⟨equal.symm, by simp⟩⟩)
      · exact .inl (.inr ⟨same, .inr ⟨equal, by simp⟩⟩)
    · exact .inr (.inr ⟨same.symm, .inl looser⟩)
  · exact .inr (.inl greater)

theorem holdsAt_of_precedes {s : Row} (before : r.precedes s = true)
    (same : s.coeffs = r.coeffs) (h : r.holdsAt x = true) : s.holdsAt x = true := by
  rw [precedes_iff] at before
  rw [holdsAt_iff] at *
  rw [same]
  rcases before with less | ⟨-, tighter | ⟨equal, strict⟩⟩
  · exact absurd same.symm less.ne
  · exact under_of_lt (lt_of_le_of_lt h.le tighter)
  · rw [← equal]
    cases hs : s.strict
    · exact h.le
    · rwa [strict hs] at h

end Row

namespace Rows

def Solves (rows : List Row) (x : List Rat) : Prop := ∀ r ∈ rows, r.holdsAt x = true

variable {rows : List Row} {x : List Rat} {n : Nat} {r : Row}

@[simp]
theorem solves_nil (x : List Rat) : Solves [] x := by
  simp [Solves]

@[simp]
theorem solves_cons : Solves (r :: rows) x ↔ r.holdsAt x = true ∧ Solves rows x := by
  simp [Solves]

@[simp]
theorem solves_append {more : List Row} :
    Solves (rows ++ more) x ↔ Solves rows x ∧ Solves more x := by
  simp [Solves, or_imp, forall_and]

theorem not_solves_of_any (h : rows.any (·.isContradiction) = true) : ¬ Solves rows x := by
  obtain ⟨r, mem, contra⟩ := any_eq_true.1 h
  exact fun solves => not_holdsAt_of_isContradiction contra x (solves r mem)

/-! ### The normal form -/

private theorem head?_firstOfRuns (rows : List Row) : (firstOfRuns rows).head? = rows.head? := by
  cases rows with
  | nil => rfl
  | cons r rest =>
    rw [firstOfRuns]
    split
    · rfl
    · split <;> rfl

private theorem solves_firstOfRuns (sorted : rows.Pairwise fun r s => r.precedes s = true) :
    Solves (firstOfRuns rows) x ↔ Solves rows x := by
  induction rows with
  | nil => rfl
  | cons r rest ih =>
    obtain ⟨before, sorted⟩ := pairwise_cons.1 sorted
    have ih := ih sorted
    have head := head?_firstOfRuns rest
    rw [firstOfRuns]
    split
    · rename_i none
      rw [none] at ih
      simp only [solves_cons, solves_nil, and_true, true_iff] at ih ⊢
      exact ⟨fun h => ⟨h, ih⟩, fun h => h.1⟩
    · rename_i s more runs
      rw [runs] at ih head
      rw [solves_cons] at ih
      split
      · -- the second row has the same coefficients, and is implied by the first
        rename_i same
        have inRest : s ∈ rest := mem_of_mem_head? head.symm
        have implied (h : r.holdsAt x = true) : s.holdsAt x = true :=
          holdsAt_of_precedes (before s inRest) same h
        rw [solves_cons, solves_cons, ← ih]
        exact ⟨fun ⟨h, hm⟩ => ⟨h, implied h, hm⟩, fun ⟨h, _, hm⟩ => ⟨h, hm⟩⟩
      · rw [solves_cons, solves_cons, solves_cons, ih]

private theorem mem_of_mem_firstOfRuns (h : r ∈ firstOfRuns rows) : r ∈ rows := by
  induction rows with
  | nil => exact h
  | cons s rest ih =>
    rw [firstOfRuns] at h
    split at h
    · simp only [mem_singleton] at h
      simp [h]
    · rename_i t more runs
      rw [runs] at ih
      split at h
      · rcases mem_cons.1 h with rfl | later
        · simp
        · simp [ih (by simp [later])]
      · rcases mem_cons.1 h with rfl | later
        · simp
        · simp [ih later]

private theorem solves_filterMap_normalize? (h : rows.any (·.isContradiction) = false) :
    Solves (rows.filterMap (·.normalize?)) x ↔ Solves rows x := by
  constructor
  · intro solves r mem
    cases normal : r.normalize? with
    | none =>
      have sound := any_eq_false.1 h r mem
      refine holdsAt_of_isConstant ?_ (by simpa using sound) x
      simpa [normalize?, isConstant, allZero] using normal
    | some s =>
      obtain ⟨q, pos, rfl⟩ := normalize?_eq_some normal
      exact (holdsAt_divide pos).1 (solves _ (mem_filterMap.2 ⟨r, mem, normal⟩))
  · intro solves s mem
    obtain ⟨r, inRows, normal⟩ := mem_filterMap.1 mem
    obtain ⟨q, pos, rfl⟩ := normalize?_eq_some normal
    exact (holdsAt_divide pos).2 (solves r inRows)

theorem solves_tidy : Solves (tidy rows) x ↔ Solves rows x := by
  unfold tidy
  split
  · rename_i contra
    have never : ¬ Solves [never (columns rows)] x := by
      simpa using not_holdsAt_never (columns rows) x
    exact ⟨fun h => absurd h never, fun h => absurd h (not_solves_of_any contra)⟩
  · rename_i sound
    rw [solves_firstOfRuns (pairwise_mergeSort precedes_trans precedes_total _)]
    have sorting : Solves ((rows.filterMap (·.normalize?)).mergeSort precedes) x ↔
        Solves (rows.filterMap (·.normalize?)) x := by
      simp only [Solves, mem_mergeSort]
    rw [sorting, solves_filterMap_normalize? (by simpa using sound)]

theorem exists_of_mem_tidy (mem : r ∈ tidy rows) (possible : rows.any (·.isContradiction) = false) :
    ∃ s ∈ rows, ∃ q, 0 < q ∧ r = s.divide q := by
  rw [tidy, possible] at mem
  obtain ⟨s, inRows, normal⟩ :=
    mem_filterMap.1 (mem_mergeSort.1 (mem_of_mem_firstOfRuns mem))
  obtain ⟨q, pos, same⟩ := normalize?_eq_some normal
  exact ⟨s, inRows, q, pos, same⟩

theorem columns_eq (wide : ∀ r ∈ rows, r.coeffs.length = n) (nonempty : rows ≠ []) :
    columns rows = n := by
  cases rows with
  | nil => exact absurd rfl nonempty
  | cons r rest => exact wide r (by simp)

theorem width_tidy (wide : ∀ r ∈ rows, r.coeffs.length = n) :
    ∀ r ∈ tidy rows, r.coeffs.length = n := by
  unfold tidy
  split
  · rename_i contra
    have nonempty : rows ≠ [] := by
      rintro rfl
      simp at contra
    simp [never, columns_eq wide nonempty]
  · rename_i possible
    intro r mem
    have inTidy : r ∈ tidy rows := by rwa [tidy, if_neg possible]
    obtain ⟨s, inRows, q, -, rfl⟩ := exists_of_mem_tidy inTidy (eq_false_of_ne_true possible)
    simp [divide, wide s inRows]

def IsTidy (rows : List Row) : Prop := ∃ source, rows = tidy source

theorem isTidy_never (n : Nat) : IsTidy [.never n] := by
  refine ⟨[.never n], ?_⟩
  rw [tidy, if_pos (by simp)]
  simp [columns, never]

theorem IsTidy.eq_of_narrow (h : IsTidy rows) (narrow : ∀ r ∈ rows, r.coeffs.length = 0) :
    rows = [.never 0] ∨ rows = [] := by
  obtain ⟨source, rfl⟩ := h
  unfold tidy at *
  split
  · rename_i contra
    rw [if_pos contra] at narrow
    obtain none : columns source = 0 := by simpa [never] using narrow
    rw [none]
    exact .inl rfl
  · rename_i possible
    rw [if_neg possible] at narrow
    refine .inr (eq_nil_iff_forall_not_mem.2 fun r mem => ?_)
    obtain ⟨s, -, normal⟩ :=
      mem_filterMap.1 (mem_mergeSort.1 (mem_of_mem_firstOfRuns mem))
    have empty := narrow r mem
    obtain ⟨q, -, rfl⟩ := normalize?_eq_some normal
    obtain none : s.coeffs = [] := by simpa [divide] using empty
    simp [normalize?, none] at normal

end Rows

end Enclosure
