import Enclosure.Proofs.Octagon.Constraints
import Enclosure.Proofs.Octagon.TightClosure
import Enclosure.Proofs.Widening

/-!
# Octagons that bound each dimension separately

A bound on two dimensions says nothing new if it is not below the mean of the bounds on each of
them.
-/

namespace Enclosure

open ExtRat

namespace ExtRat

variable {u v u' v' : ExtRat} {p q : Rat}

theorem boundSum_le_boundSum (left : u ≤ u') (right : v ≤ v') : u.boundSum v ≤ u'.boundSum v' := by
  apply le_iff_forall_fin.2
  intro q sum
  obtain ⟨p, first, second⟩ := boundSum_le_fin.1 sum
  exact boundSum_le_fin.2 ⟨p, left.trans first, right.trans second⟩

theorem half_le_half (h : u ≤ v) : u.half ≤ v.half := by
  apply le_iff_forall_fin.2
  intro q le
  exact half_le_fin.2 (h.trans (half_le_fin.1 le))

theorem half_boundSum_self (u : ExtRat) : (u.boundSum u).half = u := by
  cases u with
  | fin p =>
    change fin ((p + p) * mkRat 1 2) = fin p
    ring_nf
  | _ => rfl

theorem floor_half_boundSum_twice (u v : ExtRat) :
    (u.floor.twice.boundSum v.floor.twice).half.floor =
      (u.floor.twice.boundSum v.floor.twice).half := by
  cases u with
  | fin p =>
    cases v with
    | fin q =>
      have mean : ((⌊p⌋) * 2 + (⌊q⌋) * 2) * mkRat 1 2 = ((⌊p⌋ + ⌊q⌋ : Int) : Rat) := by
        push_cast
        ring
      apply floor_of_integral
      intro r value
      rw [← fin.inj value]
      change (((⌊p⌋) * 2 + (⌊q⌋) * 2) * mkRat 1 2).den = 1
      rw [mean, Rat.den_intCast]
    | _ => rfl
  | negInf => cases v <;> rfl
  | posInf => cases v <;> rfl

theorem exists_eq_fin_of_le (proper : u ≠ negInf) (le : u ≤ fin q) : ∃ p, u = fin p ∧ p ≤ q := by
  cases u with
  | negInf => exact absurd rfl proper
  | fin p => exact ⟨p, rfl, fin_le_fin.1 le⟩
  | posInf => exact absurd le not_posInf_le_fin

theorem half_twice (u : ExtRat) : u.twice.half = u := by
  cases u with
  | fin p =>
    change fin (p * 2 * mkRat 1 2) = fin p
    ring_nf
  | _ => rfl

theorem floor_floor (u : ExtRat) : u.floor.floor = u.floor := by
  apply floor_of_integral
  intro p value
  cases u with
  | fin q =>
    rw [← fin.inj value]
    exact Rat.den_intCast _
  | _ => cases value

theorem floor_le_floor (h : u ≤ v) : u.floor ≤ v.floor := by
  cases u with
  | negInf => exact negInf_le _
  | fin p => exact (fin_le_floor (Rat.den_intCast _)).2 ((floor_le (fin p)).trans h)
  | posInf =>
    cases v with
    | posInf => exact le_refl _
    | negInf => exact absurd h not_posInf_le_negInf
    | fin q => exact absurd h not_posInf_le_fin

end ExtRat

namespace BoundMatrix

variable {m m' : BoundMatrix} {s : Space} {n a b : Nat} {p q : Rat} {x : List Rat}

/-! ### Means -/

def mean (m : BoundMatrix) (a b : Nat) : ExtRat :=
  ((m.entry a (opposite a)).boundSum (m.entry (opposite b) b)).half

theorem mean_le_fin : m.mean a b ≤ .fin q ↔
    ∃ p, m.Bounds a (opposite a) p ∧ m.Bounds (opposite b) b (2 * q - p) := by
  rw [mean, half_le_fin, boundSum_le_fin]
  rfl

theorem mean_opposite (m : BoundMatrix) (a : Nat) :
    m.mean a (opposite a) = m.entry a (opposite a) := by
  rw [mean, opposite_opposite, half_boundSum_self]

theorem ne_opposite (a : Nat) : a ≠ opposite a := by
  unfold opposite
  split <;> omega

theorem mean_le_mean (single : ∀ a, m.entry a (opposite a) ≤ m'.entry a (opposite a)) (a b : Nat) :
    m.mean a b ≤ m'.mean a b := by
  have second := single (opposite b)
  rw [opposite_opposite] at second
  exact half_le_half (boundSum_le_boundSum (single a) second)

structure IsSeparate (m : BoundMatrix) (n : Nat) : Prop where
  square : m.IsSquare (2 * n)
  diagonal : ∀ a < 2 * n, m.entry a a = .zero
  proper : ∀ a, m.entry a (opposite a) ≠ .negInf
  mean_le : ∀ a b, a ≠ b → m.mean a b ≤ m.entry a b

theorem IsSeparate.holds_iff (separate : m.IsSeparate n) :
    m.Holds x ↔ ∀ a, .fin (2 * nodeValue x a) ≤ m.entry a (opposite a) := by
  constructor
  · intro holds a
    have bound := holds a (opposite a)
    rwa [nodeValue_opposite, sub_neg_eq_add, ← two_mul] at bound
  · intro single a b
    by_cases same : a = b
    · subst same
      rw [sub_self]
      by_cases inside : a < 2 * n
      · exact (separate.diagonal a inside).ge
      · rw [separate.square.entry_of_not_lt fun both => inside both.1]
        exact le_posInf _
    · refine le_trans (fin_le_iff_forall.2 fun q le => ?_) (separate.mean_le a b same)
      obtain ⟨p, left, right⟩ := mean_le_fin.1 le
      have first := fin_le_iff_forall.1 (single a) p left
      have second := single (opposite b)
      rw [opposite_opposite, nodeValue_opposite] at second
      linarith [fin_le_iff_forall.1 second _ right]

/-! ### Closing -/

def roundSingle (s : Space) (a : Nat) (e : ExtRat) : ExtRat :=
  if s.isInt (nodeDim a) then e.half.floor.twice else e

theorem roundSingle_ne_negInf {e : ExtRat} (h : e ≠ .negInf) : roundSingle s a e ≠ .negInf := by
  unfold roundSingle
  split
  · exact twice_ne_negInf (floor_ne_negInf (half_ne_negInf h))
  · exact h

theorem roundSingle_roundSingle (s : Space) (a : Nat) (e : ExtRat) :
    roundSingle s a (roundSingle s a e) = roundSingle s a e := by
  unfold roundSingle
  split
  · rw [half_twice, floor_floor]
  · rfl

/-- All bounds on two dimensions are means, no bounds on one dimension cross, and those on
integers are even. -/
structure IsBox (m : BoundMatrix) (s : Space) : Prop extends m.IsSeparate s.size where
  le_mean : ∀ a b, a ≠ b → m.entry a b ≤ m.mean a b
  uncrossed : ∀ a, .fin 0 ≤ m.mean a a
  even : ∀ a, roundSingle s a (m.entry a (opposite a)) = m.entry a (opposite a)

section

variable (separate : m.IsSeparate n) (none : m.shortest.hasNegativeLoop = false)
include separate none

theorem IsSeparate.of_bounds_shortest (h : m.shortest.Bounds a b q) :
    a = b ∧ 0 ≤ q ∨ m.mean a b ≤ .fin q := by
  have square := separate.square
  have nonneg {a : Nat} {q : Rat} (loop : m.shortest.Bounds a a q) : 0 ≤ q :=
    bounds_of_hasNegativeLoop_eq_false square.shortest none loop
  -- to a node and back from its opposite is a loop
  have uncrossed {a : Nat} {p q : Rat} (there : m.Bounds a (opposite a) p)
      (back : m.Bounds (opposite a) a q) : 0 ≤ p + q := by
    apply nonneg
    apply closedBelow_foldl_pivot square (fun _ _ => nonneg) (opposite a)
    · exact square.nodes.symm ▸ (square.lt_of_bounds there).2
    · exact there.foldl_pivot square
    · exact back.foldl_pivot square
  refine bounds_foldl_pivot (T := fun a b q => a = b ∧ 0 ≤ q ∨ m.mean a b ≤ .fin q) square ?_ ?_ h
  · intro a b q bound
    by_cases same : a = b
    · subst same
      exact .inl ⟨rfl, nonneg (bound.foldl_pivot square)⟩
    · exact .inr ((separate.mean_le a b same).trans bound)
  · rintro a b c p q (⟨rfl, first⟩ | left) (⟨rfl, second⟩ | right)
    · exact .inl ⟨rfl, add_nonneg first second⟩
    · exact .inr (right.trans (fin_le_fin.2 (by linarith)))
    · exact .inr (left.trans (fin_le_fin.2 (by linarith)))
    · obtain ⟨p', start, before⟩ := mean_le_fin.1 left
      obtain ⟨_, after, finish⟩ := mean_le_fin.1 right
      have middle := uncrossed after before
      exact .inr (mean_le_fin.2 ⟨p', start, finish.mono (by linarith)⟩)

theorem IsSeparate.entry_shortest (a : Nat) :
    m.shortest.entry a (opposite a) = m.entry a (opposite a) := by
  apply le_antisymm (entry_shortest_le separate.square a _)
  apply le_iff_forall_fin.2
  intro q bound
  rcases separate.of_bounds_shortest none bound with ⟨same, -⟩ | le
  · exact absurd same (ne_opposite a)
  · rwa [mean_opposite] at le

theorem IsSeparate.shortest : m.shortest.IsSeparate n := by
  have single := separate.entry_shortest none
  have square := separate.square.shortest
  refine ⟨square, fun a inside => ?_, fun a => ?_, fun a b ne => ?_⟩
  · apply le_antisymm
    · exact separate.diagonal a inside ▸ entry_shortest_le separate.square a a
    · exact fin_le_iff_forall.2 fun q bound =>
        bounds_of_hasNegativeLoop_eq_false square none bound
  · rw [single]
    exact separate.proper a
  · apply (mean_le_mean (fun a => (single a).le) a b).trans
    apply le_iff_forall_fin.2
    intro q bound
    exact (separate.of_bounds_shortest none bound).resolve_left fun h => ne h.1

end

theorem IsSquare.entry_roundIntegers_single (square : m.IsSquare n) (s : Space) (a : Nat) :
    (m.roundIntegers s).entry a (opposite a) = roundSingle s a (m.entry a (opposite a)) := by
  rw [square.entry_roundIntegers, nodeDim_opposite, Bool.and_self, if_pos rfl]
  rfl

theorem IsSeparate.roundIntegers (separate : m.IsSeparate s.size) :
    (m.roundIntegers s).IsSeparate s.size := by
  have square := separate.square
  have single := square.entry_roundIntegers_single s
  have less (a b : Nat) : (m.roundIntegers s).mean a b ≤ m.mean a b :=
    mean_le_mean (fun a => entry_roundIntegers_le square s a (opposite a)) a b
  refine ⟨square.mapEntries _, fun a inside => ?_, fun a => ?_, fun a b ne => ?_⟩
  · rw [square.entry_roundIntegers, separate.diagonal a inside, if_neg (ne_opposite a)]
    split <;> rfl
  · rw [single]
    exact roundSingle_ne_negInf (separate.proper a)
  · by_cases other : b = opposite a
    · rw [other, mean_opposite]
    · have below := (less a b).trans (separate.mean_le a b ne)
      rw [square.entry_roundIntegers]
      split
      · -- the mean of rounded bounds is an integer, so rounding keeps it below
        rename_i integers
        obtain ⟨first, second⟩ := Bool.and_eq_true_iff.1 integers
        have whole : ((m.roundIntegers s).mean a b).floor = (m.roundIntegers s).mean a b := by
          have single' := single (opposite b)
          rw [opposite_opposite] at single'
          rw [mean, single, single', roundSingle, roundSingle, nodeDim_opposite, if_pos first,
            if_pos second]
          exact floor_half_boundSum_twice _ _
        rw [← whole]
        exact floor_le_floor below
      · exact below

theorem IsSeparate.entry_strengthen (separate : m.IsSeparate n) (ne : a ≠ b) :
    m.strengthen.entry a b = m.mean a b := by
  rw [separate.square.entry_strengthen, min_eq]
  exact min_eq_right (separate.mean_le a b ne)

theorem mean_strengthen (separate : m.IsSeparate n) (a b : Nat) :
    m.strengthen.mean a b = m.mean a b := by
  have single (a : Nat) : m.strengthen.entry a (opposite a) = m.entry a (opposite a) := by
    rw [separate.entry_strengthen (ne_opposite a), mean_opposite]
  have second := single (opposite b)
  rw [opposite_opposite] at second
  rw [mean, mean, single, second]

theorem IsSeparate.close? (separate : m.IsSeparate s.size) (closed : m.close? s = some m') :
    m'.IsBox s ∧ ∀ a, m'.entry a (opposite a) = roundSingle s a (m.entry a (opposite a)) := by
  obtain ⟨loop, consistent, rfl⟩ := close?_eq_some closed
  have short := separate.shortest loop
  have round := short.roundIntegers
  have square : (m.shortest.roundIntegers s).strengthen.IsSquare (2 * s.size) :=
    round.square.mapEntries _
  have positive {a : Nat} inside : .fin 0 ≤ (m.shortest.roundIntegers s).strengthen.entry a a :=
    (square.isContradictory_eq_false.1 consistent a inside).1
  have diagonal (a : Nat) (inside : a < 2 * s.size) :
      (m.shortest.roundIntegers s).strengthen.entry a a = .zero := by
    apply le_antisymm _ (positive inside)
    exact (entry_strengthen_le round.square a a).trans (round.diagonal a inside).le
  have single (a : Nat) : (m.shortest.roundIntegers s).strengthen.entry a (opposite a) =
      roundSingle s a (m.entry a (opposite a)) := by
    rw [round.entry_strengthen (ne_opposite a), mean_opposite,
      short.square.entry_roundIntegers_single, separate.entry_shortest loop]
  rw [square.zeroDiagonal_eq diagonal]
  refine ⟨⟨⟨square, diagonal, fun a => ?_, fun a b ne => ?_⟩, fun a b ne => ?_, fun a => ?_,
    fun a => ?_⟩, single⟩
  · rw [single]
    exact roundSingle_ne_negInf (separate.proper a)
  · rw [round.entry_strengthen ne, mean_strengthen round]
  · rw [round.entry_strengthen ne, mean_strengthen round]
  · rw [mean_strengthen round]
    by_cases inside : a < 2 * s.size
    · have least := positive inside
      rw [round.square.entry_strengthen, min_eq] at least
      exact least.trans (min_le_right _ _)
    · rw [mean, round.square.entry_of_not_lt fun both => inside both.1, posInf_boundSum]
      decide
  · rw [single, roundSingle_roundSingle]

/-! ### Points -/

theorem IsSeparate.holds_setNode {y : Rat} (separate : m.IsSeparate n) (holds : m.Holds x)
    (greater : nodeValue x a ≤ y) (bound : .fin (2 * y) ≤ m.entry a (opposite a)) :
    m.Holds (setNode x a y) := by
  rw [separate.holds_iff] at holds ⊢
  intro b
  by_cases inside : nodeDim a < x.length
  · by_cases same : nodeDim b = nodeDim a
    · rcases eq_or_eq_opposite same with rfl | rfl
      · rwa [nodeValue_setNode_self inside]
      · rw [nodeValue_opposite, nodeValue_setNode_self inside]
        have old := holds (opposite a)
        rw [nodeValue_opposite] at old
        exact le_trans (fin_le_fin.2 (by linarith)) old
    · rw [nodeValue_setNode_of_ne same]
      exact holds b
  · rw [setNode, List.set_eq_of_length_le (not_lt.1 inside)]
    exact holds b

theorem isPoint_setNode {y : Rat} (point : s.IsPoint x)
    (integral : s.isInt (nodeDim a) = true → y.den = 1) : s.IsPoint (setNode x a y) := by
  refine ⟨length_setNode.trans point.length, fun d integer => ?_⟩
  by_cases same : d = nodeDim a
  · subst same
    have inside : nodeDim a < x.length := by
      rw [point.length]
      exact Nat.lt_of_lt_of_le (of_decide_eq_true integer) (Nat.le_add_right s.ints s.reals)
    rw [setNode, getD_set_self inside]
    split
    · exact integral integer
    · rw [Rat.neg_den, integral integer]
  · rw [setNode, getD_set_of_ne same]
    exact point.integral d integer

theorem IsBox.den_half (box : m.IsBox s) (integer : s.isInt (nodeDim a) = true)
    (finite : m.entry a (opposite a) = .fin q) : (q / 2).den = 1 := by
  have even := box.even a
  rw [roundSingle, if_pos integer, finite] at even
  have value : (⌊q * mkRat 1 2⌋) * 2 = q := fin.inj even
  rw [← value, mul_div_cancel_right₀ _ two_ne_zero, Rat.den_intCast]

def boundary (m : BoundMatrix) (d : Nat) : Rat :=
  match m.entry (2 * d) (2 * d + 1), m.entry (2 * d + 1) (2 * d) with
  | .fin p, _ => p / 2
  | _, .fin q => -(q / 2)
  | _, _ => 0

theorem opposite_two_mul_succ (d : Nat) : opposite (2 * d + 1) = 2 * d := by
  rw [← opposite_two_mul, opposite_opposite]

section

variable (box : m.IsBox s)
include box

theorem IsBox.fin_boundary_le (d : Nat) :
    .fin (2 * m.boundary d) ≤ m.entry (2 * d) (2 * d + 1) ∧
      .fin (2 * -m.boundary d) ≤ m.entry (2 * d + 1) (2 * d) := by
  have proper := box.proper (2 * d)
  have proper' := box.proper (2 * d + 1)
  have uncrossed := box.uncrossed (2 * d)
  rw [mean, opposite_two_mul, fin_le_half] at uncrossed
  rw [opposite_two_mul] at proper
  rw [opposite_two_mul_succ] at proper'
  unfold boundary
  cases upper : m.entry (2 * d) (2 * d + 1) with
  | negInf => exact absurd upper proper
  | fin p =>
    cases lower : m.entry (2 * d + 1) (2 * d) with
    | negInf => exact absurd lower proper'
    | fin q =>
      rw [upper, lower] at uncrossed
      have sum : 2 * 0 ≤ p + q := fin_le_fin.1 uncrossed
      exact ⟨fin_le_fin.2 (by linarith), fin_le_fin.2 (by linarith)⟩
    | posInf => exact ⟨fin_le_fin.2 (by linarith), le_posInf _⟩
  | posInf =>
    cases lower : m.entry (2 * d + 1) (2 * d) with
    | negInf => exact absurd lower proper'
    | fin q => exact ⟨le_posInf _, fin_le_fin.2 (by linarith)⟩
    | posInf => exact ⟨le_posInf _, le_posInf _⟩

theorem IsBox.den_boundary {d : Nat} (integer : s.isInt d = true) : (m.boundary d).den = 1 := by
  have dim : nodeDim (2 * d) = d := Nat.mul_div_cancel_left d two_pos
  have dim' : nodeDim (2 * d + 1) = d := by rw [← opposite_two_mul, nodeDim_opposite, dim]
  unfold boundary
  split
  · exact box.den_half (dim.symm ▸ integer) (by rwa [opposite_two_mul])
  · exact box.den_half (dim'.symm ▸ integer) (by rwa [opposite_two_mul_succ])
  · rfl

theorem IsBox.exists_point : ∃ x, s.IsPoint x ∧ m.Holds x := by
  have value {d : Nat} (inside : d < s.size) :
      ((List.range s.size).map m.boundary).getD d 0 = m.boundary d := by
    rw [List.getD_eq_getElem _ _ (by simpa using inside)]
    simp
  refine ⟨(List.range s.size).map m.boundary, ⟨by simp, fun d integer => ?_⟩, ?_⟩
  · rw [value (Nat.lt_of_lt_of_le (of_decide_eq_true integer) (Nat.le_add_right _ _))]
    exact box.den_boundary integer
  · apply box.holds_iff.2
    intro a
    by_cases inside : a < 2 * s.size
    · obtain ⟨d, rfl | rfl⟩ := Nat.even_or_odd' a
      · rw [opposite_two_mul, nodeValue_two_mul, value (by omega)]
        exact (box.fin_boundary_le d).1
      · rw [opposite_two_mul_succ, ← opposite_two_mul, nodeValue_opposite, nodeValue_two_mul,
          value (by omega), opposite_two_mul]
        exact (box.fin_boundary_le d).2
    · rw [box.square.entry_of_not_lt fun both => inside both.1]
      exact le_posInf _

theorem IsBox.entry_le_of_holds (within : ∀ x, s.IsPoint x → m.Holds x → m'.Holds x)
    (inside : a < 2 * s.size) : m.entry a (opposite a) ≤ m'.entry a (opposite a) := by
  obtain ⟨x, point, holds⟩ := box.exists_point
  -- a point that goes up to a value within the bound
  have reaches {y : Rat} (integral : s.isInt (nodeDim a) = true → y.den = 1)
      (greater : nodeValue x a ≤ y) (bound : .fin (2 * y) ≤ m.entry a (opposite a)) :
      .fin (2 * y) ≤ m'.entry a (opposite a) := by
    have raised := within _ (isPoint_setNode point integral)
      (box.holds_setNode holds greater bound) a (opposite a)
    rwa [nodeValue_opposite, sub_neg_eq_add, ← two_mul, nodeValue_setNode_self] at raised
    rw [point.length]
    exact nodeDim_lt.2 inside
  cases entry : m.entry a (opposite a) with
  | negInf => exact absurd entry (box.proper a)
  | fin q =>
    have below := box.holds_iff.1 holds a
    rw [entry, fin_le_fin] at below
    have attained := reaches (fun integer => box.den_half integer entry)
      (by linarith) (by rw [entry, mul_div_cancel₀ _ two_ne_zero])
    rwa [mul_div_cancel₀ _ two_ne_zero] at attained
  | posInf =>
    -- whole steps above a point get past every bound
    apply le_iff_forall_fin.2
    intro q le
    let k : Nat := ⌈q / 2 - nodeValue x a⌉₊ + 1
    have large : q / 2 - nodeValue x a < k := by
      push_cast [k]
      linarith [Nat.le_ceil (q / 2 - nodeValue x a)]
    have whole (integer : s.isInt (nodeDim a) = true) : (nodeValue x a + k).den = 1 := by
      rw [← (Rat.den_eq_one_iff _).1 (nodeValue_den point integer)]
      exact_mod_cast Rat.den_intCast ((nodeValue x a).num + k)
    have attained := (reaches whole (by simp) (entry ▸ le_posInf _)).trans le
    exact absurd (fin_le_fin.1 attained) (by linarith)

/-! ### Dropped and lowered bounds -/

theorem IsBox.keptEntries (box' : m'.IsBox s)
    (includes : ∀ a, m.entry a (opposite a) ≤ m'.entry a (opposite a)) :
    (Octagon.keptEntries m m').IsSeparate s.size ∧
      ∀ a, (Octagon.keptEntries m m').entry a (opposite a) = m.entry a (opposite a) ∨
        (Octagon.keptEntries m m').entry a (opposite a) = .posInf := by
  have entry (a b : Nat) : (Octagon.keptEntries m m').entry a b =
      if m'.entry a b ≤ m.entry a b then m.entry a b else .posInf := by
    apply box.square.entry_mapEntries
    exact fun _ => ite_self _
  refine ⟨⟨box.square.mapEntries _, fun a inside => ?_, fun a => ?_, fun a b ne => ?_⟩, fun a => ?_⟩
  · rw [entry, box.diagonal a inside, box'.diagonal a inside, if_pos (le_refl _)]
  · rw [entry]
    split
    · exact box.proper a
    · nofun
  · rw [entry]
    split
    · rename_i kept
      apply le_iff_forall_fin.2
      intro q bound
      -- both single bounds are finite, and since their mean does not grow neither of them does
      obtain ⟨p, first, second⟩ := mean_le_fin.1 ((box.mean_le a b ne).trans bound)
      have proper := box.proper (opposite b)
      have includes' := includes (opposite b)
      rw [opposite_opposite] at proper includes'
      obtain ⟨r, left, _⟩ := exists_eq_fin_of_le (box.proper a) first
      obtain ⟨t, right, _⟩ := exists_eq_fin_of_le proper second
      have mean : m.mean a b ≤ .fin ((r + t) / 2) :=
        mean_le_fin.2 ⟨r, left.le, right.le.trans (fin_le_fin.2 (by linarith))⟩
      obtain ⟨p', first', second'⟩ := mean_le_fin.1
        (((box'.mean_le a b ne).trans kept).trans ((box.le_mean a b ne).trans mean))
      have more : r ≤ p' := fin_le_fin.1 (left ▸ (includes a).trans first')
      have more' : t ≤ 2 * ((r + t) / 2) - p' :=
        fin_le_fin.1 (right ▸ includes'.trans second')
      refine mean_le_fin.2 ⟨r, ?_, ?_⟩
      · rw [Bounds, entry, left, if_pos (first'.trans (fin_le_fin.2 (by linarith)))]
      · rw [Bounds, entry, right, if_pos (second'.trans (fin_le_fin.2 (by linarith)))]
        exact fin_le_fin.2 (by linarith)
    · exact le_posInf _
  · rw [entry]
    exact ite_eq_or_eq _ _ _

end

theorem IsSeparate.tighten {c : ExtRat} (separate : m.IsSeparate n) (proper : c ≠ .negInf)
    (a : Nat) : (m.tighten a (opposite a) c).IsSeparate n ∧
      ∀ i, (m.tighten a (opposite a) c).entry i (opposite i) = m.entry i (opposite i) ∨
        i = a ∧ (m.tighten a (opposite a) c).entry i (opposite i) = c := by
  -- both places of the bound are the same
  have entry (i j : Nat) : (m.tighten a (opposite a) c).entry i j = m.entry i j ∨
      (i = a ∧ j = opposite a) ∧
        (m.tighten a (opposite a) c).entry i j = Min.min (m.entry i j) c := by
    rw [BoundMatrix.tighten, mapEntries, entry_ofFn, separate.square.nodes, opposite_opposite]
    split
    · split
      · rename_i place
        exact .inr ⟨(or_self_iff).1 place, min_eq _ _⟩
      · exact .inl rfl
    · rename_i outside
      exact .inl (separate.square.entry_of_not_lt outside).symm
  have le (i j : Nat) : (m.tighten a (opposite a) c).entry i j ≤ m.entry i j := by
    rcases entry i j with same | ⟨-, lowered⟩
    · exact same.le
    · exact lowered.le.trans (min_le_left _ _)
  refine ⟨⟨separate.square.mapEntries _, fun i inside => ?_, fun i => ?_, fun i j ne => ?_⟩,
    fun i => ?_⟩
  · rcases entry i i with same | ⟨⟨rfl, place⟩, -⟩
    · rw [same, separate.diagonal i inside]
    · exact absurd place (ne_opposite i)
  · rcases entry i (opposite i) with same | ⟨-, lowered⟩
    · rw [same]
      exact separate.proper i
    · rw [lowered, ← min_eq]
      exact min_ne_negInf (separate.proper i) proper
  · rcases entry i j with same | ⟨⟨rfl, rfl⟩, -⟩
    · rw [same]
      exact (mean_le_mean (fun i => le i (opposite i)) i j).trans (separate.mean_le i j ne)
    · rw [mean_opposite]
  · rcases entry i (opposite i) with same | ⟨⟨rfl, -⟩, lowered⟩
    · exact .inl same
    · rcases min_choice (m.entry i (opposite i)) c with old | new
      · exact .inl (lowered.trans old)
      · exact .inr ⟨rfl, lowered.trans new⟩

end BoundMatrix

/-! ### Octagons -/

namespace Octagon

open BoundMatrix (roundSingle)

variable {o : Octagon} {x : List Rat} {bs : List NodeBound}

def NodeBound.IsSingle (c : NodeBound) : Prop := c.b = opposite c.a ∧ c.bound ≠ .negInf

/-- The matrix of an octagon that is not marked as empty bounds each dimension separately, and has
no better bounds if it is marked as closed. -/
structure IsSeparate (o : Octagon) : Prop where
  square : o.IsSquare
  separate : o.empty = false → o.matrix.IsSeparate o.space.size
  box : o.empty = false → o.closed = true → o.matrix.IsBox o.space

section

variable (separate : o.IsSeparate)
include separate

theorem IsSeparate.isBox_close (full : o.close.empty = false) :
    o.close.matrix.IsBox o.space ∧ ∀ i, o.close.matrix.entry i (opposite i) =
      roundSingle o.space i (o.matrix.entry i (opposite i)) := by
  rcases o.close_cases with ⟨same, closed | empty⟩ | ⟨same, -⟩ | ⟨m, same, full, closed⟩
  · rw [same] at full ⊢
    have box := separate.box full closed
    exact ⟨box, fun i => (box.even i).symm⟩
  · simp [empty_of_empty empty] at full
  · simp [same] at full
  · rw [same]
    exact (separate.separate full).close? closed

theorem IsSeparate.close : o.close.IsSeparate := by
  refine ⟨separate.square.close, fun full => ?_, fun full _ => ?_⟩
  · rw [space_close]
    exact (separate.isBox_close full).1.toIsSeparate
  · rw [space_close]
    exact (separate.isBox_close full).1

theorem IsSeparate.exists_point (full : o.close.empty = false) : ∃ x, o.HasPoint x := by
  obtain ⟨x, _, holds⟩ := (separate.isBox_close full).1.exists_point
  refine ⟨x, (hasPoint_close separate.square).1 (hasPoint_iff.2 ⟨full, ?_, holds⟩)⟩
  rwa [space_close]

theorem IsSeparate.tightenAll (single : ∀ c ∈ bs, c.IsSingle) (full : o.empty = false) :
    (o.tightenAll bs).IsSeparate ∧ (o.tightenAll bs).space = o.space ∧
      ∀ i, (o.tightenAll bs).matrix.entry i (opposite i) = o.matrix.entry i (opposite i) ∨
        ∃ c ∈ bs, (o.tightenAll bs).matrix.entry i (opposite i) = c.bound := by
  induction bs generalizing o with
  | nil => exact ⟨separate, rfl, fun i => .inl rfl⟩
  | cons c bs ih =>
    obtain ⟨⟨other, proper⟩, rest⟩ := List.forall_mem_cons.1 single
    obtain ⟨lowered, entry⟩ := (separate.separate full).tighten proper c.a
    rw [← other] at lowered entry
    have step : (o.tighten c).IsSeparate := by
      refine ⟨separate.square.mapEntries _, fun _ => lowered, fun _ closed => ?_⟩
      obtain ⟨closed, same⟩ := Bool.and_eq_true_iff.1 closed
      change (o.matrix.tighten c.a c.b c.bound).IsBox o.space
      rw [of_decide_eq_true same]
      exact separate.box full closed
    obtain ⟨result, space, entries⟩ := ih step rest full
    refine ⟨result, space, fun i => ?_⟩
    rcases entries i with same | ⟨d, mem, new⟩
    · rcases entry i with old | ⟨-, new⟩
      · exact .inl (same.trans old)
      · exact .inr ⟨c, by simp, same.trans new⟩
    · exact .inr ⟨d, by simp [mem], new⟩

end

end Octagon

end Enclosure
