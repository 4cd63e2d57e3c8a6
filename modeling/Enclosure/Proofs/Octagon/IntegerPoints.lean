import Enclosure.Proofs.Octagon.TightClosure

/-!
# Integer points of octagons

In a tight matrix all steps towards a point can be made with integers.
-/

namespace Enclosure

namespace BoundMatrix

variable {m : BoundMatrix} {n i j : Nat} {c : Rat} {x : List Rat} {S : List Nat}

/-! ### Integer points -/

def IsWhole (x : List Rat) : Prop := ∀ v ∈ x, v.den = 1

theorem isWhole_replicate (n : Nat) : IsWhole (List.replicate n 0) := by
  intro v mem
  rw [List.eq_of_mem_replicate mem]
  rfl

theorem IsWhole.setNode (whole : IsWhole x) (p : Nat) (z : Int) : IsWhole (setNode x p z) := by
  intro v mem
  rcases List.mem_or_eq_of_mem_set mem with old | new
  · exact whole v old
  · rw [new]
    split
    · exact Rat.den_intCast z
    · rw [Rat.neg_den, Rat.den_intCast]

theorem isWhole_pairPoint {d k : Int} : IsWhole (pairPoint n i j d k) := by
  have second := ((isWhole_replicate n).setNode j k).setNode i (k + d)
  rwa [Int.cast_add] at second

theorem IsWhole.getD (whole : IsWhole x) (d : Nat) : (x.getD d 0).den = 1 := by
  rw [List.getD_eq_getElem?_getD]
  cases found : x[d]? with
  | none => rfl
  | some v => exact whole v (List.mem_of_getElem? found)

theorem IsWhole.nodeValue (whole : IsWhole x) (a : Nat) : ∃ z : Int, nodeValue x a = z := by
  have value := (Rat.den_eq_one_iff _).1 (whole.getD (nodeDim a))
  unfold Enclosure.nodeValue
  split
  · exact ⟨_, value.symm⟩
  · exact ⟨-(x.getD (nodeDim a) 0).num, by rw [Int.cast_neg, value]⟩

theorem IsTight.holdsOn_floor (tight : m.IsTight n) (whole : IsWhole x) (on : m.HoldsOn S x)
    {p : Nat} (new : nodeDim p ∉ S) (inside : nodeDim p < x.length) {y : Rat}
    (extended : m.HoldsOn (nodeDim p :: S) (setNode x p y)) :
    m.HoldsOn (nodeDim p :: S) (setNode x p ⌊y⌋) := by
  have self : nodeDim p ∈ nodeDim p :: S := List.mem_cons_self
  have other : nodeDim (opposite p) ∈ nodeDim p :: S := by rw [nodeDim_opposite]; exact self
  have atNew : nodeValue (setNode x p y) p = y := nodeValue_setNode_self inside
  have atOld {a : Nat} mem : nodeValue (setNode x p y) a = nodeValue x a :=
    nodeValue_setNode_of_ne fun same => new (same ▸ mem)
  -- lower bounds are integers, and upper bounds can only get better
  apply tight.holdsOn_setNode on new inside
  · intro a q mem bound
    have le := extended a p _ (List.mem_cons_of_mem _ mem) self (tight.floor bound)
    obtain ⟨z, _⟩ := whole.nodeValue a
    rw [atOld mem] at le
    have floor : z - ⌊q⌋ ≤ ⌊y⌋ := Int.le_floor.2 (by push_cast; linarith)
    have cast : (z - ⌊q⌋ : Rat) ≤ ⌊y⌋ := by exact_mod_cast floor
    linarith [Int.floor_le q]
  · intro a q mem bound
    have le := extended p a q self (List.mem_cons_of_mem _ mem) bound
    rw [atOld mem] at le
    linarith [Int.floor_le y]
  · intro q bound
    have even := tight.floor_half (by rwa [opposite_opposite])
    rw [opposite_opposite] at even
    have le := extended _ p _ other self even
    rw [nodeValue_opposite] at le
    have floor : -⌊q / 2⌋ ≤ ⌊y⌋ := Int.le_floor.2 (by push_cast; linarith)
    have cast : (-⌊q / 2⌋ : Rat) ≤ ⌊y⌋ := by exact_mod_cast floor
    linarith [Int.floor_le (q / 2)]
  · intro q bound
    have le := extended p _ q self other bound
    rw [nodeValue_opposite] at le
    linarith [Int.floor_le y]

theorem IsTight.completes (tight : m.IsTight n) : m.Completes n IsWhole := by
  apply tight.square.completes
  intro S x p whole on new inside
  obtain ⟨y, extended⟩ := tight.exists_setNode on new inside
  exact ⟨⌊y⌋, whole.setNode p ⌊y⌋, tight.holdsOn_floor whole on new inside extended⟩

theorem IsTight.exists_integers (tight : m.IsTight n) :
    ∃ x, IsWhole x ∧ x.length = n ∧ m.Holds x := by
  obtain ⟨x, whole, length, holds, -⟩ := tight.completes _ _ (isWhole_replicate n)
    List.length_replicate (holdsOn_nil m (.replicate n 0))
  exact ⟨x, whole, length, holds⟩

/-! ### Attained bounds -/

variable {z : Rat} {d k : Int}

theorem AllowsBase.opposite (allows : m.AllowsBase i j c z) :
    m.AllowsBase (opposite i) (opposite j) (-c) (-z) := by
  constructor <;> intro q bound <;> rw [opposite_opposite] at bound
  · linarith [allows.most_left q bound]
  · linarith [allows.most_right q bound]
  · linarith [allows.most_sum q bound]
  · linarith [allows.least_left q bound]
  · linarith [allows.least_right q bound]
  · linarith [allows.least_sum q bound]

section

variable (tight : m.IsTight n)
include tight

theorem AllowsBase.ceil (allows : m.AllowsBase i j d z)
    (sum : ∀ q, m.Bounds i (Enclosure.opposite j) q → 2 * ⌈z⌉ + (d : Rat) ≤ q) :
    m.AllowsBase i j d ⌈z⌉ where
  least_left q bound := by linarith [allows.least_left q bound, Int.le_ceil z]
  least_right q bound := by linarith [allows.least_right q bound, Int.le_ceil z]
  least_sum q bound := by linarith [allows.least_sum q bound, Int.le_ceil z]
  most_left q bound := by
    have le := allows.most_left _ (tight.floor_half bound)
    have ceil : ⌈z⌉ ≤ ⌊q / 2⌋ - d := Int.ceil_le.2 (by push_cast; linarith)
    have cast : (⌈z⌉ : Rat) ≤ ⌊q / 2⌋ - d := by exact_mod_cast ceil
    linarith [Int.floor_le (q / 2)]
  most_right q bound := by
    have le := allows.most_right _ (tight.floor_half bound)
    have ceil : ⌈z⌉ ≤ ⌊q / 2⌋ := Int.ceil_le.2 (by linarith)
    have cast : (⌈z⌉ : Rat) ≤ ⌊q / 2⌋ := by exact_mod_cast ceil
    linarith [Int.floor_le (q / 2)]
  most_sum := sum

theorem AllowsBase.floor (allows : m.AllowsBase i j d z)
    (sum : ∀ q, m.Bounds (Enclosure.opposite i) j q → -(2 * ⌊z⌋ + (d : Rat)) ≤ q) :
    m.AllowsBase i j d ⌊z⌋ := by
  have mirrored : m.AllowsBase (Enclosure.opposite i) (Enclosure.opposite j) (-d : Int) (-z) := by
    exact allows.opposite
  have rounded := mirrored.ceil tight fun q bound => by
    rw [opposite_opposite] at bound
    rw [Int.ceil_neg]
    push_cast
    linarith [sum q bound]
  have back := rounded.opposite
  rwa [opposite_opposite, opposite_opposite, Int.ceil_neg, Int.cast_neg, Int.cast_neg, neg_neg,
    neg_neg] at back

theorem IsTight.bounds_of_atMost {a : Nat} (h : m.AtMost a k) :
    m.Bounds a (opposite a) (2 * k) := by
  have half : ⌊(2 * k + 1 : Rat) / 2⌋ ≤ k := by
    rw [← Int.lt_add_one_iff, Int.floor_lt]
    push_cast
    linarith
  have cast : (⌊(2 * k + 1 : Rat) / 2⌋ : Rat) ≤ k := by exact_mod_cast half
  exact (tight.floor_half h).mono (by linarith)

theorem IsTight.exists_base (bound : m.Bounds i j d) (most : .fin d ≤ m.entry i j)
    (least : .fin (-d) ≤ m.entry j i) : ∃ k : Int, m.AllowsBase i j d k := by
  obtain ⟨z, allows⟩ := tight.toIsStronglyClosed.exists_base most least
  by_cases low : ∀ q, m.Bounds (opposite i) j q → -(2 * ⌊z⌋ + d) ≤ q
  · exact ⟨⌊z⌋, allows.floor tight low⟩
  push Not at low
  obtain ⟨q₀, bound₀, less₀⟩ := low
  refine ⟨⌈z⌉, allows.ceil tight fun q bound₁ => ?_⟩
  by_contra less₁
  rw [not_le] at less₁
  -- both bounds on the sum, as integers
  have upper : ⌊q⌋ + d ≤ 2 * (⌊z⌋ + d) + 1 := by
    have cast : (⌊q⌋ : Rat) < 2 * ⌈z⌉ + d := (Int.floor_le q).trans_lt less₁
    have whole : ⌊q⌋ < 2 * ⌈z⌉ + d := by exact_mod_cast cast
    have near := Int.ceil_le_floor_add_one z
    omega
  have lower : d + ⌊q₀⌋ ≤ 2 * (-⌊z⌋ - 1) + 1 := by
    have cast : (⌊q₀⌋ : Rat) < -(2 * ⌊z⌋ + d) := (Int.floor_le q₀).trans_lt less₀
    have whole : ⌊q₀⌋ < -(2 * ⌊z⌋ + d) := by exact_mod_cast cast
    omega
  -- they bound the nodes one by one, and these bounds can be rounded
  have first : m.AtMost i (⌊z⌋ + d) :=
    (tight.trans (tight.floor bound₁) (tight.mirror bound)).mono (by exact_mod_cast upper)
  have second : m.AtMost (opposite j) (-⌊z⌋ - 1) := by
    have path := tight.trans (tight.mirror bound) (tight.floor bound₀)
    rw [AtMost, opposite_opposite]
    exact path.mono (by exact_mod_cast lower)
  have right := tight.bounds_of_atMost second
  rw [opposite_opposite] at right
  have better := tight.mean (tight.bounds_of_atMost first) right
  have le := ExtRat.fin_le_iff_forall.1 most _ better
  push_cast at le
  linarith

theorem IsTight.exists_holds_eq (inside : i < 2 * n) (inside' : j < 2 * n)
    (finite : m.entry i j = .fin c) :
    ∃ x, IsWhole x ∧ x.length = n ∧ m.Holds x ∧ nodeValue x i - nodeValue x j = c := by
  have bound : m.Bounds i j c := finite.le
  by_cases same : nodeDim i = nodeDim j
  · rcases eq_or_eq_opposite same with rfl | rfl
    · obtain ⟨x, whole, length, holds⟩ := tight.exists_integers
      rw [tight.diagonal i inside] at finite
      refine ⟨x, whole, length, holds, ?_⟩
      rw [sub_self]
      exact ExtRat.fin.inj finite
    · -- the bound on twice the node is even
      have even : (c / 2).den = 1 :=
        tight.even (opposite j) inside c (by rwa [opposite_opposite])
      have half : ((c / 2).num : Rat) = c / 2 := (Rat.den_eq_one_iff _).1 even
      have least (q : Rat) (back : m.Bounds (opposite (opposite j)) (opposite j) q) :
          -(2 * (c / 2).num : Rat) ≤ q := by
        rw [opposite_opposite] at back
        linarith [tight.nonneg (tight.trans bound back)]
      have most (q : Rat) (there : m.Bounds (opposite j) (opposite (opposite j)) q) :
          (2 * (c / 2).num : Rat) ≤ q := by
        rw [opposite_opposite] at there
        linarith [ExtRat.fin_le_iff_forall.1 finite.ge q there]
      obtain ⟨x, whole, length, holds, value⟩ := tight.completes.exists_holds_single
        tight.toIsRegular inside ((isWhole_replicate n).setNode _ _) least most
      refine ⟨x, whole, length, holds, ?_⟩
      rw [nodeValue_opposite] at value ⊢
      linarith
  · have whole := (Rat.den_eq_one_iff c).1 (tight.integral i inside j inside' c finite)
    have least : .fin (-c) ≤ m.entry j i := ExtRat.fin_le_iff_forall.2 fun q back => by
      linarith [tight.nonneg (tight.trans bound back)]
    rw [← whole] at bound finite least ⊢
    obtain ⟨k, allows⟩ := tight.exists_base bound finite.ge least
    exact tight.completes.exists_holds_pair tight.toIsRegular same inside inside' finite.ge least
      allows isWhole_pairPoint

end

theorem exists_int_ge_of_parity (c : Rat) (r : Int) : ∃ d : Int, c ≤ d ∧ 2 ∣ r - d := by
  have part : 0 ≤ (r - ⌈c⌉) % 2 := Int.emod_nonneg _ two_ne_zero
  have cast : (0 : Rat) ≤ ((r - ⌈c⌉) % 2 : Int) := by exact_mod_cast part
  refine ⟨⌈c⌉ + (r - ⌈c⌉) % 2, ?_, by omega⟩
  push_cast at cast ⊢
  linarith [Int.le_ceil c]

theorem AllowsBase.ceil_of_parity (tight : m.IsTight n) (allows : m.AllowsBase i j d z)
    (parity : ∀ r, m.entry i (Enclosure.opposite j) = .fin r → 2 ∣ r.num - d) :
    m.AllowsBase i j d ⌈z⌉ := by
  apply allows.ceil tight
  intro q bound
  unfold Bounds at bound
  cases finite : m.entry i (Enclosure.opposite j) with
  | negInf => exact absurd finite (tight.entry_ne_negInf _ _)
  | fin r =>
    rw [finite, ExtRat.fin_le_fin] at bound
    obtain ⟨h, half⟩ := parity r finite
    have whole := (Rat.den_eq_one_iff r).1 (tight.integral.den_eq_one tight.square finite)
    have value : (r.num : Rat) - d = 2 * h := by exact_mod_cast half
    have le := allows.most_sum r finite.le
    have ceil : ⌈z⌉ ≤ h := Int.ceil_le.2 (by linarith)
    have cast : (⌈z⌉ : Rat) ≤ h := by exact_mod_cast ceil
    linarith
  | posInf =>
    rw [finite] at bound
    exact absurd bound ExtRat.not_posInf_le_fin

theorem IsTight.exists_holds_ge (tight : m.IsTight n) (inside : i < 2 * n) (inside' : j < 2 * n)
    (missing : m.entry i j = .posInf) (c : Rat) :
    ∃ x, IsWhole x ∧ x.length = n ∧ m.Holds x ∧ c ≤ nodeValue x i - nodeValue x j := by
  -- the difference has to respect the bound in the other direction
  obtain ⟨e, back⟩ : ∃ e : Rat, ∀ d : Rat, e ≤ d → .fin (-d) ≤ m.entry j i := by
    cases bound : m.entry j i with
    | negInf => exact absurd bound (tight.entry_ne_negInf j i)
    | fin r => exact ⟨-r, fun d le => ExtRat.fin_le_fin.2 (neg_le.1 le)⟩
    | posInf => exact ⟨0, fun d _ => ExtRat.le_posInf _⟩
  by_cases same : nodeDim i = nodeDim j
  · rcases eq_or_eq_opposite same with rfl | rfl
    · rw [tight.diagonal i inside] at missing
      exact ExtRat.noConfusion missing
    · obtain ⟨d, le, k, _⟩ := exists_int_ge_of_parity (max c e) 0
      have twice : (d : Rat) = 2 * (-k : Int) := by exact_mod_cast (by omega)
      have least := ExtRat.fin_le_iff_forall.1 (back d ((le_max_right c e).trans le))
      rw [twice] at least
      obtain ⟨x, whole, length, holds, value⟩ := tight.completes.exists_holds_single
        tight.toIsRegular inside ((isWhole_replicate n).setNode _ (-k))
        (by rwa [opposite_opposite]) (fun q bound => by
          rw [opposite_opposite, Bounds, missing] at bound
          exact absurd bound ExtRat.not_posInf_le_fin)
      refine ⟨x, whole, length, holds, ?_⟩
      rw [nodeValue_opposite] at value ⊢
      linarith [le_max_left c e]
  · obtain ⟨r, parity⟩ : ∃ r : Int, ∀ p, m.entry i (opposite j) = .fin p → p.num = r := by
      cases bound : m.entry i (opposite j) with
      | fin p => exact ⟨p.num, fun q eq => by rw [ExtRat.fin.inj eq]⟩
      | _ => exact ⟨0, fun p eq => ExtRat.noConfusion eq⟩
    obtain ⟨d, le, _⟩ := exists_int_ge_of_parity (max c e) r
    have most : .fin d ≤ m.entry i j := missing ▸ ExtRat.le_posInf _
    have least := back d ((le_max_right c e).trans le)
    obtain ⟨z, allows⟩ := tight.toIsStronglyClosed.exists_base most least
    have rounded := allows.ceil_of_parity tight fun p finite => by rwa [parity p finite]
    obtain ⟨x, whole, length, holds, value⟩ := tight.completes.exists_holds_pair
      tight.toIsRegular same inside inside' most least rounded isWhole_pairPoint
    exact ⟨x, whole, length, holds, value ▸ (le_max_left c e).trans le⟩

end BoundMatrix

namespace Octagon

variable {o : Octagon}

/-- The matrix of an octagon that is not marked as empty is a regular matrix of integers, and
tight if it is marked as closed. -/
structure IsIntegerFormed (o : Octagon) : Prop where
  regular : o.empty = false → o.matrix.IsRegular o.space.size
  integral : o.empty = false → o.matrix.IsIntegral o.space.size
  closed : o.empty = false → o.closed = true → o.matrix.IsTight o.space.size

section

variable (formed : o.IsIntegerFormed) (integers : o.space.reals = 0)
include formed integers

theorem IsIntegerFormed.isTight_close (nonempty : o.close.empty = false) :
    o.close.matrix.IsTight o.space.size := by
  rcases o.close_cases with ⟨same, known⟩ | ⟨same, -⟩ | ⟨m, same, full, closed⟩
  · rw [same] at nonempty ⊢
    exact formed.closed nonempty (known.resolve_right (by simp [nonempty]))
  · rw [same] at nonempty
    exact Bool.noConfusion nonempty
  · rw [same]
    exact (formed.regular full).isTight_close? (formed.integral full) integers closed

theorem IsIntegerFormed.empty_close_iff : o.close.empty = true ↔ ∀ x, ¬ o.HasPoint x := by
  cases marked : o.empty with
  | true =>
    apply iff_of_true (empty_of_empty marked)
    intro x inside
    simp [inside.not_empty] at marked
  | false =>
    have square : o.IsSquare := (formed.regular marked).square
    constructor
    · exact fun empty x => not_hasPoint_of_empty_close square empty
    · intro none
      by_contra nonempty
      rw [Bool.not_eq_true] at nonempty
      obtain ⟨x, whole, length, holds⟩ := (formed.isTight_close integers nonempty).exists_integers
      apply none x
      rw [← hasPoint_close square, hasPoint_iff, space_close]
      exact ⟨nonempty, ⟨length, fun d _ => whole.getD d⟩, holds⟩

theorem IsIntegerFormed.close : o.close.IsIntegerFormed := by
  have tight (nonempty : o.close.empty = false) : o.close.matrix.IsTight o.close.space.size := by
    rw [space_close]
    exact formed.isTight_close integers nonempty
  constructor
  · exact fun nonempty => (tight nonempty).toIsRegular
  · exact fun nonempty => (tight nonempty).integral
  · exact fun nonempty _ => tight nonempty

end

end Octagon

end Enclosure
