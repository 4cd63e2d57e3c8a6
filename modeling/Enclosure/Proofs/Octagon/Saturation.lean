import Mathlib.Algebra.Order.Archimedean.Basic
import Enclosure.Proofs.Elimination
import Enclosure.Proofs.Octagon.Closure

/-!
# The bounds of a strongly closed matrix are attained

Values for some dimensions that respect the bounds between their nodes can be extended to one more
dimension, because the bounds that they put on it do not cross in a closed matrix.
-/

namespace Enclosure

open List ExtRat

variable {x : List Rat} {y : Rat} {a p n : Nat}

/-! ### Changing a node -/

def setNode (x : List Rat) (p : Nat) (y : Rat) : List Rat :=
  x.set (nodeDim p) (if p % 2 = 0 then y else -y)

@[simp]
theorem length_setNode : (setNode x p y).length = x.length := length_set

theorem nodeValue_setNode_self (inside : nodeDim p < x.length) :
    nodeValue (setNode x p y) p = y := by
  unfold nodeValue setNode
  rw [getD_set_self inside]
  split <;> simp

theorem nodeValue_setNode_of_ne (ne : nodeDim a ≠ nodeDim p) :
    nodeValue (setNode x p y) a = nodeValue x a := by
  unfold nodeValue setNode
  rw [getD_set_of_ne ne]

theorem exists_setNode_above (inside : nodeDim p < x.length) (ne : p ≠ a) (q : Rat) :
    ∃ k : Nat, q < nodeValue (setNode x p k) p - nodeValue (setNode x p k) a := by
  obtain ⟨k, large⟩ := exists_nat_gt (max q (q + nodeValue x a))
  obtain ⟨large, _⟩ := max_lt_iff.1 large
  refine ⟨k, ?_⟩
  by_cases same : nodeDim a = nodeDim p
  · obtain rfl := (eq_or_eq_opposite same).resolve_left (Ne.symm ne)
    rw [nodeValue_opposite, nodeValue_setNode_self inside]
    linarith
  · rw [nodeValue_setNode_self inside, nodeValue_setNode_of_ne same]
    linarith

def nodesOf (dims : List Nat) : List Nat := dims.flatMap fun d => [2 * d, 2 * d + 1]

theorem mem_nodesOf {dims : List Nat} : a ∈ nodesOf dims ↔ nodeDim a ∈ dims := by
  simp only [nodesOf, mem_flatMap, mem_cons, not_mem_nil, or_false, nodeDim]
  constructor
  · rintro ⟨d, mem, rfl | rfl⟩
    · rwa [Nat.mul_div_cancel_left d two_pos]
    · rwa [Nat.mul_add_div two_pos]
  · exact fun mem => ⟨a / 2, mem, by omega⟩

theorem exists_between_shifts (lower upper : List (Rat × ExtRat))
    (proper : ∀ l ∈ lower, l.2 ≠ .negInf) (proper' : ∀ u ∈ upper, u.2 ≠ .negInf)
    (compatible : ∀ l ∈ lower, ∀ u ∈ upper, ∀ p q, l.2 ≤ .fin p → u.2 ≤ .fin q →
      l.1 - p ≤ u.1 + q) :
    ∃ t, (∀ l ∈ lower, ∀ q, l.2 ≤ .fin q → l.1 - q ≤ t) ∧
      ∀ u ∈ upper, ∀ q, u.2 ≤ .fin q → t ≤ u.1 + q := by
  have finite {e : ExtRat} {q : Rat} (proper : e ≠ .negInf) (le : e ≤ .fin q) :
      ∃ r, e.fin? = some r ∧ r ≤ q := by
    cases e with
    | negInf => exact absurd rfl proper
    | fin r => exact ⟨r, rfl, le⟩
    | posInf => exact absurd le not_posInf_le_fin
  -- infinite bounds say nothing, so only the finite ones are kept
  obtain ⟨t, above, below⟩ := exists_between
    (lower.filterMap fun l => l.2.fin?.map fun p => (l.1 - p, false))
    (upper.filterMap fun u => u.2.fin?.map fun q => (u.1 + q, false)) (by
      simp only [mem_filterMap, Option.map_eq_some_iff, fin?_eq_some]
      rintro _ ⟨l, inLower, p, bound, rfl⟩ _ ⟨u, inUpper, q, bound', rfl⟩
      exact compatible l inLower u inUpper p q bound.le bound'.le)
  simp only [mem_filterMap, Option.map_eq_some_iff] at above below
  refine ⟨t, fun l mem q le => ?_, fun u mem q le => ?_⟩
  · obtain ⟨r, value, _⟩ := finite (proper l mem) le
    have loose : l.1 - r ≤ t := above (l.1 - r, false) ⟨l, mem, r, value, rfl⟩
    linarith
  · obtain ⟨r, value, _⟩ := finite (proper' u mem) le
    have loose : t ≤ u.1 + r := below (u.1 + r, false) ⟨u, mem, r, value, rfl⟩
    linarith

namespace BoundMatrix

variable {m : BoundMatrix} {S : List Nat} {c : Rat} {i j : Nat} {I : List Rat → Prop}

/-! ### Points on some dimensions -/

def HoldsOn (m : BoundMatrix) (S : List Nat) (x : List Rat) : Prop :=
  ∀ a b q, nodeDim a ∈ S → nodeDim b ∈ S → m.Bounds a b q → nodeValue x a - nodeValue x b ≤ q

theorem holdsOn_nil (m : BoundMatrix) (x : List Rat) : m.HoldsOn [] x :=
  fun _ _ _ none => absurd none not_mem_nil

theorem IsRegular.holdsOn_setNode (regular : m.IsRegular n) (on : m.HoldsOn S x)
    (new : nodeDim p ∉ S) (inside : nodeDim p < x.length)
    (least : ∀ a q, nodeDim a ∈ S → m.Bounds a p q → nodeValue x a - q ≤ y)
    (most : ∀ a q, nodeDim a ∈ S → m.Bounds p a q → y ≤ nodeValue x a + q)
    (least' : ∀ q, m.Bounds (opposite p) p q → -(2 * y) ≤ q)
    (most' : ∀ q, m.Bounds p (opposite p) q → 2 * y ≤ q) :
    m.HoldsOn (nodeDim p :: S) (setNode x p y) := by
  have self : nodeValue (setNode x p y) p = y := nodeValue_setNode_self inside
  have old {a : Nat} mem : nodeValue (setNode x p y) a = nodeValue x a :=
    nodeValue_setNode_of_ne fun same => new (same ▸ mem)
  intro a b q inLeft inRight bound
  -- each side of the difference is `p`, its opposite, or an old node
  rcases mem_cons.1 inLeft with same | left
  · rcases eq_or_eq_opposite same with rfl | rfl
    · rcases mem_cons.1 inRight with same' | right
      · rcases eq_or_eq_opposite same' with rfl | rfl
        · rw [sub_self]
          exact regular.nonneg bound
        · rw [nodeValue_opposite]
          linarith [most' q bound]
      · rw [old right]
        linarith [most b q right bound]
    · rcases mem_cons.1 inRight with same' | right
      · rcases eq_or_eq_opposite same' with rfl | rfl
        · rw [nodeValue_opposite]
          linarith [least' q bound]
        · rw [sub_self]
          exact regular.nonneg bound
      · -- in the other place of this difference, `p` itself stands on the right
        have mirrored := regular.mirror bound
        rw [opposite_opposite] at mirrored
        have above := least (opposite b) q (by rwa [nodeDim_opposite]) mirrored
        rw [nodeValue_opposite] at above
        rw [nodeValue_opposite, old right]
        linarith
  · rcases mem_cons.1 inRight with same' | right
    · rcases eq_or_eq_opposite same' with rfl | rfl
      · rw [old left]
        linarith [least a q left bound]
      · have mirrored := regular.mirror bound
        rw [opposite_opposite] at mirrored
        have below := most (opposite a) q (by rwa [nodeDim_opposite]) mirrored
        rw [nodeValue_opposite] at below
        rw [nodeValue_opposite, old left]
        linarith
    · rw [old left, old right]
      exact on a b q left right bound

theorem IsRegular.holdsOn_singleton (regular : m.IsRegular n) (inside : nodeDim p < x.length)
    (least : ∀ q, m.Bounds (opposite p) p q → -(2 * y) ≤ q)
    (most : ∀ q, m.Bounds p (opposite p) q → 2 * y ≤ q) :
    m.HoldsOn [nodeDim p] (setNode x p y) := by
  refine regular.holdsOn_setNode (holdsOn_nil m x) not_mem_nil inside ?_ ?_ least most
  · exact fun a q none => absurd none not_mem_nil
  · exact fun a q none => absurd none not_mem_nil

theorem IsClosed.exists_setNode (closed : m.IsClosed n) (on : m.HoldsOn S x)
    (new : nodeDim p ∉ S) (inside : nodeDim p < x.length) :
    ∃ y, m.HoldsOn (nodeDim p :: S) (setNode x p y) := by
  -- the bounds to the opposite node count half, like bounds to a node at zero
  let lower := (0, (m.entry (opposite p) p).half) ::
    (nodesOf S).map fun a => (nodeValue x a, m.entry a p)
  let upper := (0, (m.entry p (opposite p)).half) ::
    (nodesOf S).map fun a => (nodeValue x a, m.entry p a)
  have proper : ∀ l ∈ lower, l.2 ≠ .negInf :=
    forall_mem_cons.2 ⟨half_ne_negInf (closed.entry_ne_negInf _ _),
      forall_mem_map.2 fun a _ => closed.entry_ne_negInf a p⟩
  have proper' : ∀ u ∈ upper, u.2 ≠ .negInf :=
    forall_mem_cons.2 ⟨half_ne_negInf (closed.entry_ne_negInf _ _),
      forall_mem_map.2 fun a _ => closed.entry_ne_negInf p a⟩
  -- a lower and an upper bound together are a path through `p`, or from a node to its opposite
  have compatible : ∀ l ∈ lower, ∀ u ∈ upper, ∀ r q, l.2 ≤ .fin r → u.2 ≤ .fin q →
      l.1 - r ≤ u.1 + q := by
    have half {a b : Nat} {q : Rat} (le : (m.entry a b).half ≤ .fin q) : m.Bounds a b (2 * q) :=
      half_le_fin.1 le
    simp only [lower, upper, forall_mem_cons, forall_mem_map, mem_nodesOf]
    refine ⟨⟨fun r q left right => ?_, fun b inside r q left right => ?_⟩, fun a inside =>
      ⟨fun r q left right => ?_, fun b inside' r q left right => ?_⟩⟩
    · linarith [closed.nonneg (closed.trans (half right) (half left))]
    · have around := closed.trans (closed.trans (closed.mirror right) (half left)) right
      have twice := on _ b _ (by rwa [nodeDim_opposite]) inside around
      rw [nodeValue_opposite] at twice
      linarith
    · have around := closed.trans (closed.trans left (half right)) (closed.mirror left)
      have twice := on a _ _ inside (by rwa [nodeDim_opposite]) around
      rw [nodeValue_opposite] at twice
      linarith
    · linarith [on a b _ inside inside' (closed.trans left right)]
  obtain ⟨y, least, most⟩ := exists_between_shifts lower upper proper proper' compatible
  rw [forall_mem_cons, forall_mem_map] at least most
  refine ⟨y, closed.holdsOn_setNode on new inside ?_ ?_ ?_ ?_⟩
  · exact fun a q mem bound => least.2 a (mem_nodesOf.2 mem) q bound
  · exact fun a q mem bound => most.2 a (mem_nodesOf.2 mem) q bound
  · intro q bound
    have := least.1 (q / 2) (half_le_fin.2 (by rwa [mul_div_cancel₀ _ two_ne_zero]))
    linarith
  · intro q bound
    have := most.1 (q / 2) (half_le_fin.2 (by rwa [mul_div_cancel₀ _ two_ne_zero]))
    linarith

theorem exists_holdsOn_of_extend
    (extend : ∀ S x p, I x → m.HoldsOn S x → nodeDim p ∉ S → nodeDim p < x.length →
      ∃ y, I (setNode x p y) ∧ m.HoldsOn (nodeDim p :: S) (setNode x p y))
    (start : I x) (on : m.HoldsOn S x) (dims : List Nat) (inside : ∀ d ∈ dims, d < x.length) :
    ∃ z, I z ∧ z.length = x.length ∧ m.HoldsOn (dims ++ S) z ∧
      ∀ a, nodeDim a ∈ S → nodeValue z a = nodeValue x a := by
  induction dims with
  | nil => exact ⟨x, start, rfl, on, fun _ _ => rfl⟩
  | cons d dims ih =>
    -- the induction is on the new dimensions, so the others have their values already
    obtain ⟨z, kept, length, onRest, values⟩ :=
      ih fun e mem => inside e (mem_cons_of_mem d mem)
    by_cases mem : d ∈ dims ++ S
    · have same {a : Nat} (h : nodeDim a ∈ d :: (dims ++ S)) : nodeDim a ∈ dims ++ S := by
        rcases mem_cons.1 h with rfl | rest
        · exact mem
        · exact rest
      exact ⟨z, kept, length, fun a b q left right => onRest a b q (same left) (same right), values⟩
    · have dim : nodeDim (2 * d) = d := Nat.mul_div_cancel_left d two_pos
      obtain ⟨y, kept, onAll⟩ := extend _ z (2 * d) kept onRest (by rwa [dim])
        (by rw [dim, length]; exact inside d mem_cons_self)
      rw [dim] at onAll
      refine ⟨setNode z (2 * d) y, kept, length_setNode.trans length, onAll, fun a old => ?_⟩
      rw [nodeValue_setNode_of_ne, values a old]
      rw [dim]
      rintro rfl
      exact mem (mem_append_right dims old)

def Completes (m : BoundMatrix) (n : Nat) (I : List Rat → Prop) : Prop :=
  ∀ S x, I x → x.length = n → m.HoldsOn S x →
    ∃ z, I z ∧ z.length = n ∧ m.Holds z ∧ ∀ a, nodeDim a ∈ S → nodeValue z a = nodeValue x a

theorem IsSquare.completes (square : m.IsSquare (2 * n))
    (extend : ∀ S x p, I x → m.HoldsOn S x → nodeDim p ∉ S → nodeDim p < x.length →
      ∃ y, I (setNode x p y) ∧ m.HoldsOn (nodeDim p :: S) (setNode x p y)) :
    m.Completes n I := by
  intro S x start length on
  obtain ⟨z, kept, length', onAll, values⟩ :=
    exists_holdsOn_of_extend extend start on (range n) fun d mem =>
      length ▸ mem_range.1 mem
  refine ⟨z, kept, length'.trans length, holds_iff.2 fun a b q bound => ?_, values⟩
  have all {a : Nat} inside : nodeDim a ∈ range n ++ S :=
    mem_append_left S (mem_range.2 (nodeDim_lt.2 inside))
  obtain ⟨left, right⟩ := square.lt_of_bounds bound
  exact onAll a b q (all left) (all right) bound

theorem IsClosed.completes (closed : m.IsClosed n) : m.Completes n fun _ => True :=
  closed.square.completes fun _ _ _ _ on new inside =>
    (closed.exists_setNode on new inside).imp fun _ on => ⟨trivial, on⟩

theorem IsClosed.exists_holds_of_holdsOn (closed : m.IsClosed n) (length : x.length = n)
    (on : m.HoldsOn S x) : ∃ z, z.length = n ∧ m.Holds z ∧
      ∀ a, nodeDim a ∈ S → nodeValue z a = nodeValue x a := by
  obtain ⟨z, -, extended⟩ := closed.completes _ _ trivial length on
  exact ⟨z, extended⟩

theorem IsClosed.exists_point (closed : m.IsClosed n) : ∃ x, x.length = n ∧ m.Holds x := by
  obtain ⟨x, length, holds, -⟩ :=
    closed.exists_holds_of_holdsOn length_replicate (holdsOn_nil m (replicate n 0))
  exact ⟨x, length, holds⟩

/-! ### Differences within their bounds -/

structure AllowsBase (m : BoundMatrix) (i j : Nat) (c z : Rat) : Prop where
  least_left : ∀ q, m.Bounds (opposite i) i q → -(2 * (z + c)) ≤ q
  least_right : ∀ q, m.Bounds (opposite j) j q → -(2 * z) ≤ q
  least_sum : ∀ q, m.Bounds (opposite i) j q → -(2 * z + c) ≤ q
  most_left : ∀ q, m.Bounds i (opposite i) q → 2 * (z + c) ≤ q
  most_right : ∀ q, m.Bounds j (opposite j) q → 2 * z ≤ q
  most_sum : ∀ q, m.Bounds i (opposite j) q → 2 * z + c ≤ q

theorem IsStronglyClosed.exists_base (closed : m.IsStronglyClosed n)
    (most : .fin c ≤ m.entry i j) (least : .fin (-c) ≤ m.entry j i) :
    ∃ z, m.AllowsBase i j c z := by
  rw [fin_le_iff_forall] at most least
  have half {a b : Nat} {q : Rat} : (m.entry a b).half ≤ .fin (q / 2) ↔ m.Bounds a b q := by
    rw [half_le_fin, mul_div_cancel₀ _ two_ne_zero, Bounds]
  have proper (a b : Nat) : (m.entry a b).half ≠ .negInf :=
    half_ne_negInf (closed.entry_ne_negInf a b)
  -- with `i` at `z + c`, the bounds on `2 i`, `2 j` and `i + j` are all bounds on `2 z`
  obtain ⟨z, above, below⟩ := exists_between_shifts
    [(-c, (m.entry (opposite i) i).half), (0, (m.entry (opposite j) j).half),
      (-c / 2, (m.entry (opposite i) j).half)]
    [(-c, (m.entry i (opposite i)).half), (0, (m.entry j (opposite j)).half),
      (-c / 2, (m.entry i (opposite j)).half)]
    (by simp [proper]) (by simp [proper]) (by
      simp only [forall_mem_cons, not_mem_nil, false_implies, implies_true, and_true, half_le_fin]
      refine ⟨⟨?_, ?_, ?_⟩, ⟨?_, ?_, ?_⟩, ?_, ?_, ?_⟩ <;> intro p q left right
      · linarith [closed.nonneg (closed.trans left right)]
      · linarith [least _ (closed.mean right left)]
      · have mirrored := closed.mirror right
        rw [opposite_opposite] at mirrored
        linarith [least _ (closed.trans mirrored left)]
      · linarith [most _ (closed.mean right left)]
      · linarith [closed.nonneg (closed.trans left right)]
      · linarith [most _ (closed.trans right left)]
      · linarith [most _ (closed.trans right left)]
      · have mirrored := closed.mirror left
        rw [opposite_opposite] at mirrored
        linarith [least _ (closed.trans right mirrored)]
      · have mirrored := closed.mirror left
        rw [opposite_opposite] at mirrored
        linarith [closed.nonneg (closed.trans right mirrored)])
  simp only [forall_mem_cons, not_mem_nil, false_implies, implies_true, and_true] at above below
  obtain ⟨least₁, least₂, least₃⟩ := above
  obtain ⟨most₁, most₂, most₃⟩ := below
  refine ⟨z, ?_, ?_, ?_, ?_, ?_, ?_⟩ <;> intro q bound <;> rw [← half] at bound
  · linarith [least₁ _ bound]
  · linarith [least₂ _ bound]
  · linarith [least₃ _ bound]
  · linarith [most₁ _ bound]
  · linarith [most₂ _ bound]
  · linarith [most₃ _ bound]

def pairPoint (n i j : Nat) (c z : Rat) : List Rat :=
  setNode (setNode (replicate n 0) j z) i (z + c)

@[simp]
theorem length_pairPoint {z : Rat} : (pairPoint n i j c z).length = n := by
  simp [pairPoint]

theorem AllowsBase.holdsOn_pairPoint {z : Rat} (allows : m.AllowsBase i j c z)
    (regular : m.IsRegular n) (distinct : nodeDim i ≠ nodeDim j) (inside : i < 2 * n)
    (inside' : j < 2 * n) (most : .fin c ≤ m.entry i j) (least : .fin (-c) ≤ m.entry j i) :
    m.HoldsOn [nodeDim i, nodeDim j] (pairPoint n i j c z) ∧
      nodeValue (pairPoint n i j c z) i - nodeValue (pairPoint n i j c z) j = c := by
  rw [fin_le_iff_forall] at most least
  have second : nodeDim j < (replicate n (0 : Rat)).length := by
    rw [length_replicate]
    exact nodeDim_lt.2 inside'
  have first : nodeDim i < (setNode (replicate n 0) j z).length := by
    rw [length_setNode, length_replicate]
    exact nodeDim_lt.2 inside
  have onOne := regular.holdsOn_singleton second allows.least_right allows.most_right
  have atJ : nodeValue (setNode (replicate n 0) j z) j = z := nodeValue_setNode_self second
  constructor
  · refine regular.holdsOn_setNode onOne (by simpa using distinct) first ?_ ?_ allows.least_left
      allows.most_left
    · intro a q mem bound
      rcases eq_or_eq_opposite (mem_singleton.1 mem) with rfl | rfl
      · linarith [least q bound]
      · have mirrored := regular.mirror bound
        rw [opposite_opposite] at mirrored
        rw [nodeValue_opposite]
        linarith [allows.least_sum q mirrored]
    · intro a q mem bound
      rcases eq_or_eq_opposite (mem_singleton.1 mem) with rfl | rfl
      · linarith [most q bound]
      · rw [nodeValue_opposite]
        linarith [allows.most_sum q bound]
  · rw [pairPoint, nodeValue_setNode_self first, nodeValue_setNode_of_ne distinct.symm, atJ]
    ring

theorem Completes.exists_holds_pair {z : Rat} (completes : m.Completes n I)
    (regular : m.IsRegular n) (distinct : nodeDim i ≠ nodeDim j) (inside : i < 2 * n)
    (inside' : j < 2 * n) (most : .fin c ≤ m.entry i j) (least : .fin (-c) ≤ m.entry j i)
    (allows : m.AllowsBase i j c z) (start : I (pairPoint n i j c z)) :
    ∃ x, I x ∧ x.length = n ∧ m.Holds x ∧ nodeValue x i - nodeValue x j = c := by
  obtain ⟨on, difference⟩ := allows.holdsOn_pairPoint regular distinct inside inside' most least
  obtain ⟨x, kept, length, holds, values⟩ := completes _ _ start length_pairPoint on
  refine ⟨x, kept, length, holds, ?_⟩
  rw [values i (by simp), values j (by simp), difference]

theorem Completes.exists_holds_single (completes : m.Completes n I) (regular : m.IsRegular n)
    (inside : i < 2 * n) (start : I (setNode (replicate n 0) i y))
    (least : ∀ q, m.Bounds (opposite i) i q → -(2 * y) ≤ q)
    (most : ∀ q, m.Bounds i (opposite i) q → 2 * y ≤ q) :
    ∃ x, I x ∧ x.length = n ∧ m.Holds x ∧ nodeValue x i = y := by
  have room : nodeDim i < (replicate n (0 : Rat)).length := by
    rw [length_replicate]
    exact nodeDim_lt.2 inside
  obtain ⟨x, kept, length, holds, values⟩ := completes _ _ start
    (length_setNode.trans length_replicate) (regular.holdsOn_singleton room least most)
  refine ⟨x, kept, length, holds, ?_⟩
  rw [values i (mem_singleton_self _), nodeValue_setNode_self room]

section

variable (closed : m.IsStronglyClosed n) (inside : i < 2 * n) (inside' : j < 2 * n)
include closed inside inside'

theorem IsStronglyClosed.exists_holds (most : .fin c ≤ m.entry i j)
    (least : .fin (-c) ≤ m.entry j i) :
    ∃ x, x.length = n ∧ m.Holds x ∧ nodeValue x i - nodeValue x j = c := by
  by_cases same : nodeDim i = nodeDim j
  · rcases eq_or_eq_opposite same with rfl | rfl
    · -- a node differs from itself by zero only
      obtain ⟨x, length, holds⟩ := closed.exists_point
      rw [closed.diagonal i inside] at most least
      refine ⟨x, length, holds, ?_⟩
      rw [sub_self]
      exact le_antisymm (neg_nonpos.1 least) most
    · -- the difference to the opposite node is twice the value
      rw [fin_le_iff_forall] at most least
      obtain ⟨x, -, length, holds, value⟩ := closed.completes.exists_holds_single
        closed.toIsRegular (y := -c / 2) inside' trivial
        (fun q bound => by linarith [most q bound]) fun q bound => by linarith [least q bound]
      refine ⟨x, length, holds, ?_⟩
      rw [nodeValue_opposite, value]
      ring
  · -- two values are chosen first, and then extended to all dimensions
    obtain ⟨z, allows⟩ := closed.exists_base most least
    obtain ⟨x, -, attained⟩ := closed.completes.exists_holds_pair closed.toIsRegular same inside
      inside' most least allows trivial
    exact ⟨x, attained⟩

theorem IsStronglyClosed.exists_holds_eq (finite : m.entry i j = .fin c) :
    ∃ x, x.length = n ∧ m.Holds x ∧ nodeValue x i - nodeValue x j = c := by
  refine closed.exists_holds inside inside' finite.ge (fin_le_iff_forall.2 fun q back => ?_)
  linarith [closed.nonneg (closed.trans finite.le back)]

theorem IsStronglyClosed.exists_holds_ge (missing : m.entry i j = .posInf) (c : Rat) :
    ∃ x, x.length = n ∧ m.Holds x ∧ c ≤ nodeValue x i - nodeValue x j := by
  obtain ⟨d, le, least⟩ : ∃ d, c ≤ d ∧ .fin (-d) ≤ m.entry j i := by
    cases back : m.entry j i with
    | negInf => exact absurd back (closed.entry_ne_negInf j i)
    | fin r => exact ⟨max c (-r), le_max_left c (-r), neg_le.1 (le_max_right c (-r))⟩
    | posInf => exact ⟨c, le_refl c, le_posInf _⟩
  obtain ⟨x, length, holds, difference⟩ :=
    closed.exists_holds inside inside' (missing ▸ le_posInf _) least
  exact ⟨x, length, holds, difference ▸ le⟩

theorem IsStronglyClosed.bounds_of_forall {q : Rat}
    (all : ∀ x, x.length = n → m.Holds x → nodeValue x i - nodeValue x j ≤ q) : m.Bounds i j q := by
  unfold Bounds
  cases bound : m.entry i j with
  | negInf => exact negInf_le _
  | fin c =>
    obtain ⟨x, length, holds, difference⟩ := closed.exists_holds_eq inside inside' bound
    exact difference ▸ all x length holds
  | posInf =>
    obtain ⟨x, length, holds, _⟩ := closed.exists_holds_ge inside inside' bound (q + 1)
    linarith [all x length holds]

end

theorem IsStronglyClosed.entry_le_of_holds {m' : BoundMatrix} (closed : m.IsStronglyClosed n)
    (within : ∀ x, x.length = n → m.Holds x → m'.Holds x) (inside : i < 2 * n)
    (inside' : j < 2 * n) : m.entry i j ≤ m'.entry i j := by
  apply le_iff_forall_fin.2
  intro q bound
  apply closed.bounds_of_forall inside inside'
  intro x length holds
  exact holds_iff.1 (within x length holds) i j q bound

theorem IsRegular.close?_of_holds {m' : BoundMatrix} {s : Space} (regular : m.IsRegular n)
    (real : s.ints = 0) (closed : m'.IsStronglyClosed n)
    (same : ∀ x, x.length = n → (m.Holds x ↔ m'.Holds x)) : m.close? s = some m' := by
  have points (x : List Rat) : m.shortest.strengthen.Holds x ↔ m.Holds x := by
    rw [holds_strengthen regular.square.shortest, holds_shortest regular.square]
  have possible : m.shortest.hasNegativeLoop = false := by
    obtain ⟨x, length, holds⟩ := closed.exists_point
    apply eq_false_of_ne_true
    intro loop
    exact not_holds_of_hasNegativeLoop loop x
      ((holds_shortest regular.square).2 ((same x length).2 holds))
  have strong := (regular.shortest possible).strengthen
  rw [regular.close?_of_real real, possible, if_neg Bool.false_ne_true]
  congr 1
  apply strong.square.ext closed.square
  intro a left b right
  apply le_antisymm
  · apply strong.entry_le_of_holds _ left right
    exact fun x length holds => (same x length).1 ((points x).1 holds)
  · apply closed.entry_le_of_holds _ left right
    exact fun x length holds => (points x).2 ((same x length).2 holds)

end BoundMatrix

end Enclosure
