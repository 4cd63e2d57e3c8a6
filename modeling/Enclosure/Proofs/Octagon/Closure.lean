import Enclosure.Proofs.Octagon.Matrices

/-!
# Shortest paths and strengthening

Detours through one node after the other give the shortest paths, as long as no cycle is negative:
after each step the bounds are closed under detours through the nodes tried so far.
-/

namespace Enclosure.BoundMatrix

open ExtRat

variable {m : BoundMatrix} {n k a b c : Nat} {p q : Rat} {x : List Rat} {ks : List Nat} {s : Space}

/-- The bounds on one difference agree, and no node differs from itself. -/
structure IsMirrored (m : BoundMatrix) (n : Nat) : Prop where
  square : m.IsSquare (2 * n)
  coherent : ∀ a < 2 * n, ∀ b < 2 * n, m.entry (opposite b) (opposite a) = m.entry a b
  diagonal : ∀ a < 2 * n, m.entry a a = .zero

/-- The bounds on one difference agree, no node differs from itself, and every bound is a
rational or missing. -/
structure IsRegular (m : BoundMatrix) (n : Nat) : Prop where
  square : m.IsSquare (2 * n)
  coherent : ∀ a < 2 * n, ∀ b < 2 * n, m.entry (opposite b) (opposite a) = m.entry a b
  diagonal : ∀ a < 2 * n, m.entry a a = .zero
  proper : ∀ a < 2 * n, ∀ b < 2 * n, m.entry a b ≠ .negInf

/-- No bound is improved by a detour. -/
structure IsClosed (m : BoundMatrix) (n : Nat) : Prop extends m.IsRegular n where
  triangle : ∀ a < 2 * n, ∀ b < 2 * n, ∀ c < 2 * n,
    m.entry a c ≤ (m.entry a b).boundSum (m.entry b c)

/-- No bound is improved by a detour, or by bounds on single dimensions. -/
structure IsStronglyClosed (m : BoundMatrix) (n : Nat) : Prop extends m.IsClosed n where
  strong : ∀ a < 2 * n, ∀ b < 2 * n,
    m.entry a b ≤ ((m.entry a (opposite a)).boundSum (m.entry (opposite b) b)).half

/-! ### Rules for bounds -/

theorem coherent_of_bounds
    (mirror : ∀ a b q, m.Bounds a b q → m.Bounds (opposite b) (opposite a) q) (a b : Nat) :
    m.entry (opposite b) (opposite a) = m.entry a b := by
  refine le_antisymm ?_ ?_
  · exact le_iff_forall_fin.2 (mirror a b)
  · refine le_iff_forall_fin.2 fun q h => ?_
    have back := mirror _ _ q h
    rwa [opposite_opposite, opposite_opposite] at back

theorem triangle_of_bounds
    (trans : ∀ a b c p q, m.Bounds a b p → m.Bounds b c q → m.Bounds a c (p + q)) (a b c : Nat) :
    m.entry a c ≤ (m.entry a b).boundSum (m.entry b c) := by
  refine le_iff_forall_fin.2 fun q sum => ?_
  obtain ⟨p, left, right⟩ := boundSum_le_fin.1 sum
  have bound := trans a b c p (q - p) left right
  rwa [add_sub_cancel] at bound

theorem IsRegular.entry_ne_negInf (regular : m.IsRegular n) (a b : Nat) :
    m.entry a b ≠ .negInf := by
  by_cases inside : a < 2 * n ∧ b < 2 * n
  · exact regular.proper a inside.1 b inside.2
  · rw [regular.square.entry_of_not_lt inside]
    nofun

theorem IsRegular.isMirrored (regular : m.IsRegular n) : m.IsMirrored n :=
  ⟨regular.square, regular.coherent, regular.diagonal⟩

theorem IsMirrored.isRegular (mirrored : m.IsMirrored n)
    (proper : ∀ a < 2 * n, ∀ b < 2 * n, m.entry a b ≠ .negInf) : m.IsRegular n :=
  ⟨mirrored.square, mirrored.coherent, mirrored.diagonal, proper⟩

theorem IsMirrored.mirror (mirrored : m.IsMirrored n) (h : m.Bounds a b q) :
    m.Bounds (opposite b) (opposite a) q := by
  obtain ⟨left, right⟩ := mirrored.square.lt_of_bounds h
  rwa [Bounds, mirrored.coherent a left b right]

theorem IsRegular.mirror (regular : m.IsRegular n) (h : m.Bounds a b q) :
    m.Bounds (opposite b) (opposite a) q := regular.isMirrored.mirror h

theorem IsMirrored.bounds_self (mirrored : m.IsMirrored n) (inside : a < 2 * n) :
    m.Bounds a a q ↔ 0 ≤ q := by
  rw [Bounds, mirrored.diagonal a inside]
  exact fin_le_fin

theorem IsRegular.bounds_self (regular : m.IsRegular n) (inside : a < 2 * n) :
    m.Bounds a a q ↔ 0 ≤ q := regular.isMirrored.bounds_self inside

theorem IsRegular.nonneg (regular : m.IsRegular n) (h : m.Bounds a a q) : 0 ≤ q :=
  (regular.bounds_self (regular.square.lt_of_bounds h).1).1 h

theorem IsClosed.trans (closed : m.IsClosed n) (left : m.Bounds a b p) (right : m.Bounds b c q) :
    m.Bounds a c (p + q) := by
  obtain ⟨first, second⟩ := closed.square.lt_of_bounds left
  obtain ⟨-, third⟩ := closed.square.lt_of_bounds right
  refine (closed.triangle a first b second c third).trans (boundSum_le_fin.2 ⟨p, left, ?_⟩)
  rwa [add_sub_cancel_left]

theorem IsStronglyClosed.mean (closed : m.IsStronglyClosed n)
    (left : m.Bounds a (opposite a) p) (right : m.Bounds (opposite b) b q) :
    m.Bounds a b ((p + q) / 2) := by
  obtain ⟨first, -⟩ := closed.square.lt_of_bounds left
  obtain ⟨-, second⟩ := closed.square.lt_of_bounds right
  refine (closed.strong a first b second).trans (half_le_fin.2 (boundSum_le_fin.2 ⟨p, left, ?_⟩))
  rwa [mul_div_cancel₀ _ two_ne_zero, add_sub_cancel_left]

theorem isStronglyClosed_of_bounds (square : m.IsSquare (2 * n))
    (proper : ∀ a b, m.entry a b ≠ .negInf)
    (mirror : ∀ a b q, m.Bounds a b q → m.Bounds (opposite b) (opposite a) q)
    (self : ∀ a < 2 * n, m.Bounds a a 0) (nonneg : ∀ a q, m.Bounds a a q → 0 ≤ q)
    (trans : ∀ a b c p q, m.Bounds a b p → m.Bounds b c q → m.Bounds a c (p + q))
    (mean : ∀ a b p q, m.Bounds a (opposite a) p → m.Bounds (opposite b) b q →
      m.Bounds a b ((p + q) / 2)) : m.IsStronglyClosed n where
  square := square
  coherent a _ b _ := coherent_of_bounds mirror a b
  diagonal a inside := le_antisymm (self a inside) (fin_le_iff_forall.2 (nonneg a))
  proper a _ b _ := proper a b
  triangle a _ b _ c _ := triangle_of_bounds trans a b c
  strong a _ b _ := by
    refine le_iff_forall_fin.2 fun q h => ?_
    obtain ⟨p, left, right⟩ := boundSum_le_fin.1 (half_le_fin.1 h)
    have bound := mean a b p (2 * q - p) left right
    rwa [add_sub_cancel, mul_div_cancel_left₀ _ two_ne_zero] at bound

/-! ### Shortest paths -/

theorem IsSquare.foldl_pivot (square : m.IsSquare n) (ks : List Nat) :
    (ks.foldl pivot m).IsSquare n := by
  induction ks generalizing m with
  | nil => exact square
  | cons k ks ih => exact ih (square.mapEntries _)

theorem bounds_foldl_pivot {T : Nat → Nat → Rat → Prop} (square : m.IsSquare n)
    (start : ∀ a b q, m.Bounds a b q → T a b q)
    (trans : ∀ a b c p q, T a b p → T b c q → T a c (p + q)) (h : (ks.foldl pivot m).Bounds a b q) :
    T a b q := by
  induction ks generalizing m with
  | nil => exact start a b q h
  | cons k ks ih =>
    refine ih (square.mapEntries _) (fun a b q bound => ?_) h
    rcases (bounds_pivot square).1 bound with old | ⟨p, left, right⟩
    · exact start a b q old
    · have sum := trans a k b p (q - p) (start a k p left) (start k b _ right)
      rwa [add_sub_cancel] at sum

theorem Bounds.foldl_pivot (square : m.IsSquare n) (h : m.Bounds a b q) :
    (ks.foldl pivot m).Bounds a b q := by
  induction ks generalizing m with
  | nil => exact h
  | cons k ks ih => exact ih (square.mapEntries _) ((bounds_pivot square).2 (.inl h))

def ClosedBelow (m : BoundMatrix) (k : Nat) : Prop :=
  ∀ h < k, ∀ a b p q, m.Bounds a h p → m.Bounds h b q → m.Bounds a b (p + q)

theorem ClosedBelow.pivot (closed : m.ClosedBelow k) (square : m.IsSquare n)
    (nonneg : ∀ q, m.Bounds k k q → 0 ≤ q) : (m.pivot k).ClosedBelow (k + 1) := by
  -- bounds to and from `k` itself do not change: the loop at `k` is not negative
  have into {a : Nat} {p : Rat} (bound : (m.pivot k).Bounds a k p) : m.Bounds a k p := by
    rcases (bounds_pivot square).1 bound with old | ⟨r, old, loop⟩
    · exact old
    · exact old.mono (by linarith [nonneg _ loop])
  have out {b : Nat} {q : Rat} (bound : (m.pivot k).Bounds k b q) : m.Bounds k b q := by
    rcases (bounds_pivot square).1 bound with old | ⟨r, loop, old⟩
    · exact old
    · exact old.mono (by linarith [nonneg _ loop])
  have join {a b : Nat} {p q r : Rat} left (right : m.Bounds k b q)
      (sum : p + q ≤ r) : (m.pivot k).Bounds a b r :=
    (bounds_pivot square).2 (.inr ⟨p, left, right.mono (by linarith)⟩)
  intro h below a b p q left right
  rcases Nat.lt_succ_iff_lt_or_eq.1 below with earlier | rfl
  · rcases (bounds_pivot square).1 left with left | ⟨_, left, left'⟩
    · rcases (bounds_pivot square).1 right with right | ⟨q', right, right'⟩
      · exact (bounds_pivot square).2 (.inl (closed h earlier a b p q left right))
      · exact join (closed h earlier a k p q' left right) right' (by linarith)
    · rcases (bounds_pivot square).1 right with right | ⟨q', right, right'⟩
      · exact join left (closed h earlier k b _ q left' right) (by linarith)
      · -- the two detours meet in `h`, and leave out a loop from `k` to `k`
        have loop := nonneg _ (closed h earlier k k _ q' left' right)
        exact join left right' (by linarith)
  · exact join (into left) (out right) (le_refl _)

section

variable (square : m.IsSquare n)
include square

theorem closedBelow_foldl_pivot
    (nonneg : ∀ a q, ((List.range k).foldl pivot m).Bounds a a q → 0 ≤ q) :
    ((List.range k).foldl pivot m).ClosedBelow k := by
  induction k with
  | zero => exact fun h below => absurd below (Nat.not_lt_zero h)
  | succ k ih =>
    rw [List.range_succ, List.foldl_append] at nonneg ⊢
    have earlier : ∀ a q, ((List.range k).foldl .pivot m).Bounds a a q → 0 ≤ q :=
      fun a q bound => nonneg a q ((bounds_pivot (square.foldl_pivot _)).2 (.inl bound))
    exact (ih earlier).pivot (square.foldl_pivot _) (earlier k)

theorem IsSquare.shortest : m.shortest.IsSquare n := square.foldl_pivot _

theorem bounds_of_hasNegativeLoop_eq_false (none : m.hasNegativeLoop = false) (h : m.Bounds a a q) :
    0 ≤ q := by
  have inside : a < m.nodes := square.nodes ▸ (square.lt_of_bounds h).1
  simp only [hasNegativeLoop, List.any_eq_false, List.mem_range, decide_eq_true_eq, not_lt] at none
  exact fin_le_iff_forall.1 (sign_nonneg.1 (none a inside)) q h

theorem entry_foldl_pivot_ne_negInf (proper : ∀ a b, m.entry a b ≠ .negInf) (ks : List Nat)
    (a b : Nat) : (ks.foldl pivot m).entry a b ≠ .negInf := by
  induction ks generalizing m with
  | nil => exact proper a b
  | cons k ks ih =>
    refine ih (square.mapEntries _) fun a b => ?_
    rw [square.entry_pivot]
    exact min_ne_negInf (proper a b) (boundSum_ne_negInf (proper a k) (proper k b))

theorem Bounds.trans_shortest (none : m.shortest.hasNegativeLoop = false)
    (left : m.shortest.Bounds a b p) (right : m.shortest.Bounds b c q) :
    m.shortest.Bounds a c (p + q) := by
  have nonneg (a : Nat) q (h : m.shortest.Bounds a a q) : 0 ≤ q :=
    bounds_of_hasNegativeLoop_eq_false square.shortest none h
  refine closedBelow_foldl_pivot square nonneg b ?_ a c p q left right
  exact square.nodes.symm ▸ (square.shortest.lt_of_bounds left).2

end

theorem IsMirrored.shortest (mirrored : m.IsMirrored n)
    (none : m.shortest.hasNegativeLoop = false) : m.shortest.IsMirrored n := by
  have square := mirrored.square
  -- the paths read backwards through the opposite nodes are as short
  have mirror (a b : Nat) q (h : m.shortest.Bounds a b q) :
      m.shortest.Bounds (opposite b) (opposite a) q := by
    refine bounds_foldl_pivot (T := fun a b q => m.shortest.Bounds (opposite b) (opposite a) q)
      square (fun a b q old => (mirrored.mirror old).foldl_pivot square) ?_ h
    intro a b c p q left right
    exact add_comm q p ▸ .trans_shortest square none right left
  -- the diagonal was zero before, and a lower entry would be a negative loop
  refine ⟨square.shortest, fun a _ b _ => coherent_of_bounds mirror a b, fun a inside => ?_⟩
  refine le_antisymm ?_ (fin_le_iff_forall.2 fun q =>
    bounds_of_hasNegativeLoop_eq_false square.shortest none)
  exact ((mirrored.bounds_self inside).2 (le_refl 0)).foldl_pivot square

theorem IsRegular.shortest (regular : m.IsRegular n) (none : m.shortest.hasNegativeLoop = false) :
    m.shortest.IsClosed n := by
  have proper : ∀ a < 2 * n, ∀ b < 2 * n, m.shortest.entry a b ≠ .negInf := fun a _ b _ =>
    entry_foldl_pivot_ne_negInf regular.square regular.entry_ne_negInf _ a b
  refine ⟨(regular.isMirrored.shortest none).isRegular proper, fun a _ b _ c _ => ?_⟩
  exact triangle_of_bounds (fun _ _ _ _ _ => .trans_shortest regular.square none) a b c

theorem holds_shortest (square : m.IsSquare n) : m.shortest.Holds x ↔ m.Holds x := by
  simp only [holds_iff]
  constructor
  · exact fun holds a b q bound => holds a b q (bound.foldl_pivot square)
  · intro holds a b q bound
    refine bounds_foldl_pivot square holds (fun a b c p q left right => ?_) bound
    linarith

theorem not_holds_of_hasNegativeLoop (loop : m.hasNegativeLoop = true) (x : List Rat) :
    ¬ m.Holds x := by
  intro holds
  simp only [hasNegativeLoop, List.any_eq_true, decide_eq_true_eq] at loop
  obtain ⟨a, -, negative⟩ := loop
  have zero := holds a a
  rw [sub_self, ← sign_nonneg] at zero
  exact absurd zero (not_le.2 negative)

/-! ### Strengthening -/

theorem entry_strengthen_ne_negInf (square : m.IsSquare n) (proper : ∀ a b, m.entry a b ≠ .negInf)
    (a b : Nat) : m.strengthen.entry a b ≠ .negInf := by
  rw [square.entry_strengthen]
  exact min_ne_negInf (proper a b) (half_ne_negInf (boundSum_ne_negInf (proper _ _) (proper _ _)))

theorem IsClosed.strengthen (closed : m.IsClosed n) : m.strengthen.IsStronglyClosed n := by
  have square := closed.square
  have square' : m.strengthen.IsSquare (2 * n) := square.mapEntries _
  have mirror (a b : Nat) q (h : m.strengthen.Bounds a b q) :
      m.strengthen.Bounds (opposite b) (opposite a) q := by
    rw [bounds_strengthen square] at h ⊢
    rcases h with old | ⟨p, left, right⟩
    · exact .inl (closed.mirror old)
    · refine .inr ⟨2 * q - p, ?_, ?_⟩
      · rwa [opposite_opposite]
      · rwa [opposite_opposite, sub_sub_cancel]
  have trans (a b c : Nat) (p q) (left : m.strengthen.Bounds a b p)
      (right : m.strengthen.Bounds b c q) : m.strengthen.Bounds a c (p + q) := by
    rw [bounds_strengthen square] at left right ⊢
    rcases left with left | ⟨p', first, second⟩
    · rcases right with right | ⟨_, first', second'⟩
      · exact .inl (closed.trans left right)
      · -- from `a` to its opposite through `b` and the opposite of `b`
        have around := closed.trans (closed.trans left first') (closed.mirror left)
        exact .inr ⟨_, around, second'.mono (by linarith)⟩
    · rcases right with right | ⟨_, first', second'⟩
      · have around := closed.trans (closed.trans (closed.mirror right) second) right
        exact .inr ⟨p', first, around.mono (by linarith)⟩
      · -- the two bounds on `b` alone do not cross
        have loop := closed.nonneg (closed.trans first' second)
        exact .inr ⟨p', first, second'.mono (by linarith)⟩
  -- the mean of a bound with itself is the bound
  have single {a : Nat} {q : Rat} (h : m.strengthen.Bounds a (opposite a) q) :
      m.Bounds a (opposite a) q := by
    rcases (bounds_strengthen square).1 h with old | ⟨p, left, right⟩
    · exact old
    · rw [opposite_opposite] at right
      rcases le_total p q with less | _
      · exact left.mono less
      · exact right.mono (by linarith)
  apply isStronglyClosed_of_bounds square' _ mirror _ _ trans
  · intro a b p q left right
    have right' : m.strengthen.Bounds (opposite b) (opposite (opposite b)) q := by
      rwa [opposite_opposite]
    have old := single right'
    rw [opposite_opposite] at old
    exact (bounds_strengthen square).2 (.inr ⟨p, single left, old.mono (by linarith)⟩)
  · exact entry_strengthen_ne_negInf square closed.entry_ne_negInf
  · intro a inside
    exact (bounds_strengthen square).2 (.inl ((closed.bounds_self inside).2 (le_refl 0)))
  · intro a q h
    rcases (bounds_strengthen square).1 h with old | ⟨p, left, right⟩
    · exact closed.nonneg old
    · linarith [closed.nonneg (closed.trans left right)]

theorem holds_strengthen (square : m.IsSquare n) : m.strengthen.Holds x ↔ m.Holds x := by
  simp only [holds_iff]
  constructor
  · exact fun holds a b q bound => holds a b q ((bounds_strengthen square).2 (.inl bound))
  · intro holds a b q bound
    rcases (bounds_strengthen square).1 bound with old | ⟨p, left, right⟩
    · exact holds a b q old
    · have first := holds _ _ _ left
      have second := holds _ _ _ right
      rw [nodeValue_opposite] at first second
      linarith

/-! ### Closing -/

theorem IsSquare.roundIntegers_of_real (square : m.IsSquare n) (real : s.ints = 0) :
    m.roundIntegers s = m := by
  refine square.mapEntries_eq fun a _ b _ => ?_
  simp [Space.isInt, real]

theorem IsSquare.isContradictory_eq_false (square : m.IsSquare n) : m.isContradictory = false ↔
    ∀ a < n, .fin 0 ≤ m.entry a a ∧
      .fin 0 ≤ (m.entry a (opposite a)).boundSum (m.entry (opposite a) a) := by
  simp only [isContradictory, List.any_eq_false, List.mem_range, Bool.or_eq_true,
    decide_eq_true_eq, not_or, not_lt, sign_nonneg, square.nodes]

theorem IsClosed.isContradictory_eq_false (closed : m.IsClosed n) : m.isContradictory = false := by
  refine closed.square.isContradictory_eq_false.2 fun a inside => ?_
  have zero : .fin 0 = m.entry a a := (closed.diagonal a inside).symm
  rw [zero]
  exact ⟨le_refl _, closed.triangle a inside _ (opposite_lt.2 inside) a inside⟩

theorem IsSquare.zeroDiagonal_eq (square : m.IsSquare n)
    (diagonal : ∀ a < n, m.entry a a = .zero) : m.zeroDiagonal = m := by
  refine square.mapEntries_eq fun a inside b _ => ?_
  split
  · rename_i same
    rw [← same, diagonal a inside]
  · rfl

theorem close?_eq_some {m' : BoundMatrix} (closed : m.close? s = some m') :
    m.shortest.hasNegativeLoop = false ∧
      (m.shortest.roundIntegers s).strengthen.isContradictory = false ∧
      m' = (m.shortest.roundIntegers s).strengthen.zeroDiagonal := by
  unfold close? at closed
  dsimp only at closed
  split at closed
  · cases closed
  · rename_i loop
    split at closed
    · cases closed
    · rename_i consistent
      exact ⟨eq_false_of_ne_true loop, eq_false_of_ne_true consistent,
        (Option.some.inj closed).symm⟩

theorem IsRegular.close?_of_real (regular : m.IsRegular n) (real : s.ints = 0) :
    m.close? s = if m.shortest.hasNegativeLoop then none else some m.shortest.strengthen := by
  unfold close?
  dsimp only
  split
  · rfl
  · rename_i none
    have strong := (regular.shortest (eq_false_of_ne_true none)).strengthen
    rw [regular.square.shortest.roundIntegers_of_real real, strong.isContradictory_eq_false,
      strong.square.zeroDiagonal_eq strong.diagonal]
    rfl

end Enclosure.BoundMatrix
