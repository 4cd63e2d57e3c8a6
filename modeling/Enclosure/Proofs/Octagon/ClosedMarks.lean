import Enclosure.Proofs.Octagon.Projection

/-!
# What the mark of a closed octagon says

An octagon that is marked as closed over integer and real dimensions is strongly closed up to
detours through integer dimensions.
-/

namespace Enclosure

open BoundMatrix

namespace Permutation

variable {p q : Permutation} {n size : Nat} {dims : List Nat}

theorem image_of_foldlM_swap {k d : Nat} (valid : p.Valid n)
    (run : (dims.zipIdx k).foldlM (fun p e => p.swap e.1 (size + e.2)) p = .ok q) (low : d < size)
    (other : d ∉ dims) : q.image d = p.image d := by
  induction dims generalizing k p with
  | nil =>
    cases run
    rfl
  | cons e dims ih =>
    rw [List.mem_cons, not_or] at other
    rw [List.zipIdx_cons, List.foldlM_cons] at run
    cases first : p.swap e (size + k) with
    | error f =>
      rw [first] at run
      cases run
    | ok r =>
      rw [first] at run
      obtain ⟨-, -, valid', -, -, others⟩ := valid.of_swap first
      rw [ih valid' run other.2, others d other.1 (by omega)]

theorem preimage_of_exchange_of_not_mem {d : Nat} (run : exchange size dims = .ok p)
    (low : d < size) (other : d ∉ dims) : p.preimage d = d := by
  have image : p.image d = d :=
    (image_of_foldlM_swap (valid_identity _) run low other).trans (image_identity _ d)
  have back := (movesOut_of_exchange run).valid.preimage_image (Nat.lt_add_right dims.length low)
  rwa [image] at back

end Permutation

namespace BoundMatrix

variable {m m' : BoundMatrix} {n : Nat} {R R' : Nat → Prop} {s : Space}

theorem IsSquare.foldl_pivot_eq_self (square : m.IsSquare n) (closed : m.IsClosedThrough R)
    (ks : List Nat) (through : ∀ k ∈ ks, R (nodeDim k)) : ks.foldl pivot m = m := by
  induction ks with
  | nil => rfl
  | cons k ks ih =>
    obtain ⟨first, rest⟩ := List.forall_mem_cons.1 through
    have same : m.pivot k = m := by
      refine square.mapEntries_eq fun a _ b _ => ?_
      rw [ExtRat.min_eq]
      exact min_eq_left (closed.triangle a k b first)
    rw [List.foldl_cons, same, ih rest]

theorem IsMirrored.close?_eq_self (mirrored : m.IsMirrored n) (closed : m.IsClosedThrough R)
    (all : ∀ d < n, R d) (real : s.ints = 0) : m.close? s = some m := by
  have square := mirrored.square
  have short : m.shortest = m := by
    refine square.foldl_pivot_eq_self closed _ fun k inside => all _ (nodeDim_lt.2 ?_)
    rwa [List.mem_range, square.nodes] at inside
  have strong : m.strengthen = m := by
    refine square.mapEntries_eq fun a _ b _ => ?_
    rw [ExtRat.min_eq]
    exact min_eq_left (closed.strong a b)
  have nonneg {a : Nat} inside : .fin 0 ≤ m.entry a a :=
    (mirrored.diagonal a inside).ge
  have consistent : m.isContradictory = false := by
    refine square.isContradictory_eq_false.2 fun a inside => ?_
    have through : R (nodeDim (opposite a)) := all _ (nodeDim_lt.2 (opposite_lt.2 inside))
    exact ⟨nonneg inside, (nonneg inside).trans (closed.triangle a _ a through)⟩
  have loop : m.hasNegativeLoop = false := by
    simp only [hasNegativeLoop, List.any_eq_false, List.mem_range, decide_eq_true_eq, not_lt,
      ExtRat.sign_nonneg, square.nodes]
    exact fun a inside => nonneg inside
  have zeros : m.zeroDiagonal = m := by
    have unchanged := mirrored.zeroDiagonal_strengthen_eq (strong.symm ▸ consistent)
    rwa [strong] at unchanged
  unfold BoundMatrix.close?
  simp only [short, loop, square.roundIntegers_of_real real, strong, consistent, zeros,
    Bool.false_eq_true, if_false]

/-! ### Even bounds -/

def IsEvenOn (m : BoundMatrix) (R : Nat → Prop) : Prop :=
  ∀ a q, R (nodeDim a) → m.entry a (opposite a) = .fin q → ∃ k : Int, q = 2 * k

theorem IsEvenOn.of_nodes {φ : Nat → Nat} (even : m.IsEvenOn R)
    (read : ∀ a, R' (nodeDim a) → m'.entry a (opposite a) = .posInf ∨
      m'.entry a (opposite a) = m.entry (φ a) (opposite (φ a)) ∧ R (nodeDim (φ a))) :
    m'.IsEvenOn R' := by
  intro a q known entry
  rcases read a known with missing | ⟨same, known⟩
  · rw [missing] at entry
    cases entry
  · exact even (φ a) q known (same.symm.trans entry)

theorem IsSquare.isEvenOn_close? (square : m.IsSquare n) (closed : m.close? s = some m')
    (ints : ∀ d, R d → s.isInt d = true) : m'.IsEvenOn R := by
  obtain ⟨-, -, rfl⟩ := close?_eq_some closed
  have rounded : (m.shortest.roundIntegers s).IsSquare n := square.shortest.mapEntries _
  have strong : (m.shortest.roundIntegers s).strengthen.IsSquare n := rounded.mapEntries _
  have zeros : (m.shortest.roundIntegers s).strengthen.zeroDiagonal.IsSquare n :=
    strong.mapEntries _
  intro a q known entry
  have inside : a < n ∧ opposite a < n := by
    by_contra outside
    rw [zeros.entry_of_not_lt outside] at entry
    cases entry
  rw [strong.entry_zeroDiagonal inside.1 inside.2, if_neg (ne_opposite a),
    rounded.entry_strengthen_single, square.shortest.entry_roundIntegers_single, roundSingle,
    if_pos (ints _ known)] at entry
  cases short : m.shortest.entry a (opposite a) with
  | fin p =>
    rw [short] at entry
    exact ⟨⌊p * mkRat 1 2⌋, (ExtRat.fin.inj entry).symm.trans (mul_comm _ _)⟩
  | _ =>
    rw [short] at entry
    cases entry

end BoundMatrix

namespace Octagon

variable {m : BoundMatrix} {n : Nat} {R : Nat → Prop} {o : Octagon} {s : Space}

/-! ### Even bounds -/

theorem marksKeep_isEvenOn : MarksKeep IsMirrored (fun R m => m.IsEvenOn R)
    fun s d => s.isInt d = true where
  unbounded n R a q _ entry := by
    rw [unbounded, entry_ofFn, if_neg (ne_opposite a), ite_self] at entry
    cases entry
  close mirrored closed ints := mirrored.square.isEvenOn_close? closed ints
  max {m m' _ _} mirrored _ even even' a q known entry := by
    rw [mirrored.square.entry_max] at entry
    rcases max_choice (m.entry a (opposite a)) (m'.entry a (opposite a)) with left | right
    · exact even a q known (left.symm.trans entry)
    · exact even' a q known (right.symm.trans entry)
  read {_ _ _ f _ _} _ even _ dims := by
    refine even.of_nodes (φ := fun a => nodeOf a (f (nodeDim a))) fun a known => ?_
    rw [readMatrix, entry_ofFn]
    split
    · rename_i below
      rw [nodeDim_opposite, nodeOf_opposite, nodeDim_nodeOf]
      exact .inr ⟨rfl, dims _ (nodeDim_lt.2 below.1) known⟩
    · exact .inl rfl
  inserted {_ _ _ places _ _} _ even _ dims := by
    refine even.of_nodes (φ := fun a => nodeOf a ((places.idxOf? (nodeDim a)).getD 0))
      fun a known => ?_
    rw [insertedMatrix, entry_ofFn, nodeDim_opposite, nodeDim_nodeOf]
    split
    · cases found : places.idxOf? (nodeDim a) with
      | none => exact .inl (if_neg (ne_opposite a))
      | some d =>
        simp only [Option.getD_some, nodeOf_opposite]
        exact .inr ⟨trivial, dims _ d known found⟩
    · exact .inl rfl
  forgotten {_ n _ _ _} mirrored even free := by
    refine even.of_nodes (φ := id) fun a known => ?_
    by_cases inside : a < 2 * n ∧ opposite a < 2 * n
    · rw [forgottenMatrix, mirrored.square.entry_mapEntries (absurd inside), if_neg (ne_opposite a)]
      rcases free with rfl | rfl
      · split
        · exact .inl rfl
        · exact .inr ⟨rfl, known⟩
      · exact .inr ⟨by simp, known⟩
    · exact .inl ((mirrored.square.mapEntries _).entry_of_not_lt inside)
  append s k d old := by simp [Space.isInt, Space.grow, SpaceChange.append]

/-- No real dimension becomes an integer one, and assignments are to real dimensions. -/
def KeepsIntegers : Construction Octagon → Prop
  | .addDimensions v c _ =>
      ∀ d < v.space.size, (v.space.grow c).isInt (c.shift d) = true → v.space.isInt d = true
  | .removeDimensions v c => ∀ s, v.space.shrink c = .ok s → ∀ i < s.size, s.isInt i = true →
      v.space.isInt ((c.kept v.space.size).getD i 0) = true
  | .permuteDimensions v p => ∀ d < v.space.size, v.space.isInt d = true →
      v.space.isInt (p.preimage d) = true
  | .assignForms v dims _ => ∀ d ∈ dims, v.space.isInt d = false
  | .assignTerms v dims _ => ∀ d ∈ dims, v.space.isInt d = false
  | _ => True

theorem isInt_preimage_of_exchange {dims : List Nat} {p : Permutation}
    (none : ∀ d ∈ dims, s.isInt d = false) (ok : Permutation.exchange s.size dims = .ok p) {d : Nat}
    (old : d < s.size) (int : s.isInt d = true) :
    (s.grow (.append s.size dims.length)).isInt (p.preimage d) = true := by
  have other : d ∉ dims := fun mem => Bool.false_ne_true ((none d mem).symm.trans int)
  rw [Permutation.preimage_of_exchange_of_not_mem ok old other]
  simpa [Space.isInt, Space.grow, SpaceChange.append] using int

theorem movesKeep_isInt {c : Construction Octagon} (valid : c.IsValid) (keeps : KeepsIntegers c) :
    MovesKeep (fun s d => s.isInt d = true) c := by
  cases c with
  | permuteDimensions v p => exact ⟨valid, keeps⟩
  | assignForms v dims forms =>
    exact fun p ok d old int => isInt_preimage_of_exchange keeps ok old int
  | assignTerms v dims ts =>
    exact fun p ok d old int => isInt_preimage_of_exchange keeps ok old int
  | addDimensions v c project => exact keeps
  | removeDimensions v c => exact keeps
  | _ => trivial

/-! ### Octagons that are built -/

theorem keeps_marked_isMirrored {mark : (Nat → Prop) → BoundMatrix → Prop}
    {good : Space → Nat → Prop} {admitted : Construction Octagon → Prop}
    (marks : MarksKeep IsMirrored mark good) (moves : ∀ c, admitted c → MovesKeep good c) :
    domain.Keeps admitted fun o =>
      Marked IsMirrored (mark (good o.space)) o.space o :=
  keeps_marked matricesKeep_isMirrored marks (fun _ _ _ _ distinct _ => distinct) moves

/-- An octagon that is built and marked as closed is closed up to detours through integers: no mean
of two bounds on single dimensions is below a bound. -/
theorem closed_up_to_integers {o : Octagon} (built : domain.Built Construction.IsValid o)
    (full : o.empty = false) (closed : o.closed = true) :
    (∀ a b, o.matrix.entry a b ≤
      ((o.matrix.entry a (opposite a)).boundSum (o.matrix.entry (opposite b) b)).half) ∧
    (domain.Built (fun c => c.IsValid ∧ KeepsReals c) o →
      (∀ a b c, o.space.IsReal (nodeDim b) →
        o.matrix.entry a c ≤ (o.matrix.entry a b).boundSum (o.matrix.entry b c)) ∧
      (o.space.ints = 0 → o.matrix.close? o.space = some o.matrix)) ∧
    (domain.Built (fun c => c.IsValid ∧ KeepsIntegers c) o →
      ∀ a q, o.space.isInt (nodeDim a) = true → o.matrix.entry a (opposite a) = .fin q →
        ∃ k : Int, q = 2 * k) := by
  refine ⟨?_, fun built => ?_, fun built => ?_⟩
  · -- nothing is known of any dimension, so that dimensions may move everywhere
    have marks : MarksKeep BoundMatrix.IsMirrored (fun R m => m.IsClosedThrough R)
        fun _ _ => False :=
      marksKeep_isClosedThrough id (fun _ _ none => none.elim) fun _ _ _ _ => Iff.rfl
    have marked :=
      (keeps_marked_isMirrored marks fun c valid => movesKeep_false valid).of_built built
    exact (marked.closed full closed).strong
  · have marks : MarksKeep BoundMatrix.IsMirrored (fun R m => m.IsClosedThrough R) Space.IsReal :=
      marksKeep_isClosedThrough id (fun _ _ real => real)
        fun s k d _ => isReal_grow_append s s.size k d
    have marked := (keeps_marked_isMirrored marks fun c admits =>
      movesKeep_isReal admits.1 admits.2).of_built built
    have through := marked.closed full closed
    refine ⟨through.triangle, fun real => ?_⟩
    exact (marked.matrix full).close?_eq_self through
      (fun d _ => by simp [Space.IsReal, Space.isInt, real]) real
  · have marked := (keeps_marked_isMirrored marksKeep_isEvenOn fun c admits =>
      movesKeep_isInt admits.1 admits.2).of_built built
    exact marked.closed full closed

/-- The first dimension is an integer, and twice it is at most a half; so it is not positive. -/
def rounded : Octagon :=
  ⟨⟨1, 1⟩, ⟨[[.fin 0, .fin 0, .fin (1 / 2), .fin (1 / 4)], [.posInf, .fin 0, .posInf, .fin 0],
    [.fin 0, .fin (1 / 4), .fin 0, .fin (1 / 2)], [.posInf, .fin (1 / 2), .posInf, .fin 0]]⟩,
    true, false, false⟩

theorem built_rounded :
    domain.Built (fun c => c.IsValid ∧ KeepsReals c ∧ KeepsIntegers c) rounded := by
  have start : domain.Built (fun c => c.IsValid ∧ KeepsReals c ∧ KeepsIntegers c) (top ⟨1, 1⟩) :=
    Domain.built_top ⟨trivial, trivial, trivial⟩
  exact Domain.built_of_any (c := .meetLinear (top ⟨1, 1⟩)
      [⟨.atLeast, ⟨.rational (1 / 2), .sparse [(0, .rational (-1)), (1, .rational (-1))]⟩, none⟩,
        ⟨.atLeast, ⟨.rational (1 / 2), .sparse [(0, .rational (-1)), (1, .rational 1)]⟩, none⟩,
        ⟨.atLeast, ⟨.rational 0, .sparse [(0, .rational 1), (1, .rational (-1))]⟩, none⟩])
    ⟨trivial, trivial, trivial⟩ (List.forall_mem_singleton.2 start) ⟨.meet, .standard, []⟩
    (by decide +kernel)

/-- No bound is improved by a detour through the real dimension, and the bound on twice the integer
dimension is even. -/
theorem rounded_closed_through_real :
    domain.Built Construction.IsValid rounded ∧ rounded.empty = false ∧ rounded.closed = true ∧
      (∀ a c, rounded.matrix.entry a c ≤
        (rounded.matrix.entry a 2).boundSum (rounded.matrix.entry 2 c)) ∧
      ∀ q, rounded.matrix.entry 0 1 = .fin q → ∃ k : Int, q = 2 * k := by
  have valid : domain.Built Construction.IsValid rounded := built_rounded.mono fun c h => h.1
  obtain ⟨-, through, even⟩ := closed_up_to_integers valid rfl rfl
  obtain ⟨triangle, -⟩ := through (built_rounded.mono fun c h => ⟨h.1, h.2.1⟩)
  have even := even (built_rounded.mono fun c h => ⟨h.1, h.2.2⟩)
  exact ⟨valid, rfl, rfl, fun a c => triangle a 2 c rfl, fun q entry => even 0 q rfl entry⟩

/-- A detour through an integer dimension may improve a bound of an octagon that is marked as
closed, and so may one through a real dimension that was an integer before. -/
theorem marked_but_not_closed :
    (∃ o : Octagon, domain.Built (fun c => c.IsValid ∧ KeepsReals c ∧ KeepsIntegers c) o ∧
      o.empty = false ∧ o.closed = true ∧ ∃ a b c,
        (o.matrix.entry a b).boundSum (o.matrix.entry b c) < o.matrix.entry a c) ∧
    (∃ o : Octagon, domain.Built Construction.IsValid o ∧ o.empty = false ∧ o.closed = true ∧
      o.space.ints = 0 ∧ ∃ a b c,
        (o.matrix.entry a b).boundSum (o.matrix.entry b c) < o.matrix.entry a c) ∧
    ∃ o : Octagon, domain.Built (fun c => c.IsValid ∧ KeepsReals c) o ∧ o.empty = false ∧
      o.closed = true ∧ ∃ a q, o.space.isInt (nodeDim a) = true ∧
        o.matrix.entry a (opposite a) = .fin q ∧ ¬ ∃ k : Int, q = 2 * k := by
  refine ⟨⟨rounded, built_rounded, rfl, rfl, 2, 0, 3, by decide +kernel⟩,
    ⟨retyped, built_retyped.mono fun c h => h.1, rfl, rfl, rfl, 2, 0, 3, by decide +kernel⟩, ?_⟩
  let halved : Octagon :=
    ⟨⟨1, 0⟩, ⟨[[.fin 0, .fin 1], [.fin (-1), .fin 0]]⟩, true, false, false⟩
  have start : domain.Built (fun c => c.IsValid ∧ KeepsReals c) (top ⟨1, 0⟩) :=
    Domain.built_of_any (c := .top ⟨1, 0⟩) ⟨trivial, trivial⟩ (by simp [Construction.operands])
      ⟨.meet, .standard, []⟩ (by decide +kernel)
  have built : domain.Built (fun c => c.IsValid ∧ KeepsReals c) halved :=
    Domain.built_of_any (c := .assignForms (top ⟨1, 0⟩) [0] [⟨.rational (1 / 2), .sparse []⟩])
      ⟨trivial, trivial⟩ (by simpa [Construction.operands] using start) ⟨.meet, .standard, []⟩
      (by decide +kernel)
  refine ⟨halved, built, rfl, rfl, 0, 1, rfl, rfl, fun even => ?_⟩
  obtain ⟨k, half⟩ := even
  have odd : (1 : Int) = 2 * k := by exact_mod_cast half
  omega

end Octagon

end Enclosure
