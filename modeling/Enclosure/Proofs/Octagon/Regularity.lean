import Enclosure.Proofs.Octagon.Marks

/-!
# Matrices of octagons stay regular

An octagon that is not marked as empty has a regular matrix: the two places of a difference agree,
the diagonal is zero and no bound is `-∞`.
-/

namespace Enclosure

open BoundMatrix

/-! ### Nodes that move -/

@[simp]
theorem nodeDim_nodeOf (a d : Nat) : nodeDim (nodeOf a d) = d := by
  unfold nodeDim nodeOf
  omega

theorem nodeOf_opposite (a d : Nat) : nodeOf (opposite a) d = opposite (nodeOf a d) := by
  unfold nodeOf opposite
  split <;> split <;> omega

theorem nodeOf_lt {a d n : Nat} : nodeOf a d < 2 * n ↔ d < n := by
  rw [← nodeDim_lt, nodeDim_nodeOf]

theorem opposite_inj {a b : Nat} : opposite a = opposite b ↔ a = b :=
  ⟨fun same => by rw [← opposite_opposite a, same, opposite_opposite], congrArg opposite⟩

theorem ExtRat.max_ne_negInf {u v : ExtRat} (left : u ≠ .negInf) (right : v ≠ .negInf) :
    u.max v ≠ .negInf := by
  unfold ExtRat.max
  split
  · exact right
  · exact left

theorem ExtRat.boundSum_comm (u v : ExtRat) : u.boundSum v = v.boundSum u := by
  cases u <;> cases v <;> simp [boundSum, add?, Rat.add_comm]

/-! ### Regular matrices -/

namespace BoundMatrix

variable {m m' : BoundMatrix} {n : Nat} {f : Nat → Nat → ExtRat} {g : Nat → Nat → ExtRat → ExtRat}
  {h : ExtRat → ExtRat → ExtRat} {s : Space}

theorem isMirrored_ofFn (coherent : ∀ a < 2 * n, ∀ b < 2 * n, f (opposite b) (opposite a) = f a b)
    (diagonal : ∀ a < 2 * n, f a a = .zero) : (ofFn (2 * n) f).IsMirrored n := by
  have entry {a b : Nat} left right :
      (ofFn (2 * n) f).entry a b = f a b := entry_ofFn.trans (if_pos ⟨left, right⟩)
  refine ⟨isSquare_ofFn _ _, fun a left b right => ?_, fun a inside => ?_⟩
  · rw [entry left right, entry (opposite_lt.2 right) (opposite_lt.2 left), coherent a left b right]
  · rw [entry inside inside, diagonal a inside]

theorem IsMirrored.isRegular_ofFn (mirrored : (ofFn (2 * n) f).IsMirrored n)
    (proper : ∀ a < 2 * n, ∀ b < 2 * n, f a b ≠ .negInf) : (ofFn (2 * n) f).IsRegular n := by
  refine mirrored.isRegular fun a left b right => ?_
  rw [entry_ofFn, if_pos ⟨left, right⟩]
  exact proper a left b right

theorem isMirrored_mapEntries (square : m.IsSquare (2 * n))
    (coherent : ∀ a < 2 * n, ∀ b < 2 * n,
      g (opposite b) (opposite a) (m.entry (opposite b) (opposite a)) = g a b (m.entry a b))
    (diagonal : ∀ a < 2 * n, g a a (m.entry a a) = .zero) : (m.mapEntries g).IsMirrored n := by
  unfold mapEntries
  rw [square.nodes]
  exact isMirrored_ofFn coherent diagonal

theorem IsMirrored.isRegular_mapEntries (mirrored : (m.mapEntries g).IsMirrored n)
    (square : m.IsSquare (2 * n))
    (proper : ∀ a < 2 * n, ∀ b < 2 * n, g a b (m.entry a b) ≠ .negInf) :
    (m.mapEntries g).IsRegular n := by
  unfold mapEntries at mirrored ⊢
  rw [square.nodes] at mirrored ⊢
  exact mirrored.isRegular_ofFn proper

theorem IsMirrored.combine (mirrored : m.IsMirrored n) (mirrored' : m'.IsMirrored n)
    (zero : h .zero .zero = .zero) :
    (m.mapEntries fun i j e => h e (m'.entry i j)).IsMirrored n := by
  refine isMirrored_mapEntries mirrored.square (fun a left b right => ?_) fun a inside => ?_
  · rw [mirrored.coherent a left b right, mirrored'.coherent a left b right]
  · rw [mirrored.diagonal a inside, mirrored'.diagonal a inside, zero]

theorem IsRegular.combine (regular : m.IsRegular n) (regular' : m'.IsRegular n)
    (zero : h .zero .zero = .zero) (proper : ∀ u v, u ≠ .negInf → v ≠ .negInf → h u v ≠ .negInf) :
    (m.mapEntries fun i j e => h e (m'.entry i j)).IsRegular n :=
  (regular.isMirrored.combine regular'.isMirrored zero).isRegular_mapEntries regular.square
    fun a left b right =>
      proper _ _ (regular.proper a left b right) (regular'.proper a left b right)

/-! ### Closing -/

theorem IsMirrored.roundIntegers (mirrored : m.IsMirrored n) :
    (m.roundIntegers s).IsMirrored n := by
  refine isMirrored_mapEntries mirrored.square (fun a left b right => ?_) fun a inside => ?_
  · rw [mirrored.coherent a left b right, nodeDim_opposite, nodeDim_opposite, Bool.and_comm,
      opposite_opposite]
    exact if_congr .rfl (if_congr eq_comm rfl rfl) rfl
  · rw [mirrored.diagonal a inside, if_neg (ne_opposite a)]
    split <;> rfl

theorem IsRegular.roundIntegers (regular : m.IsRegular n) : (m.roundIntegers s).IsRegular n :=
  regular.isMirrored.roundIntegers.isRegular fun a _ b _ =>
    entry_roundIntegers_ne_negInf regular.square regular.entry_ne_negInf a b

theorem IsMirrored.zeroDiagonal_strengthen (mirrored : m.IsMirrored n) :
    m.strengthen.zeroDiagonal.IsMirrored n := by
  have square : m.strengthen.IsSquare (2 * n) := mirrored.square.mapEntries _
  refine isMirrored_mapEntries square (fun a left b right => ?_) fun a _ => if_pos rfl
  have entry : m.strengthen.entry (opposite b) (opposite a) = m.strengthen.entry a b := by
    rw [mirrored.square.entry_strengthen, mirrored.square.entry_strengthen,
      mirrored.coherent a left b right, opposite_opposite, opposite_opposite, ExtRat.boundSum_comm]
  rw [entry]
  exact if_congr (opposite_inj.trans eq_comm) rfl rfl

theorem IsRegular.zeroDiagonal_strengthen (regular : m.IsRegular n) :
    m.strengthen.zeroDiagonal.IsRegular n := by
  refine regular.isMirrored.zeroDiagonal_strengthen.isRegular_mapEntries
    (regular.square.mapEntries _) fun a left b right => ?_
  split
  · exact ExtRat.noConfusion
  · exact entry_strengthen_ne_negInf regular.square regular.entry_ne_negInf a b

end BoundMatrix

def Construction.HasProperRanges {V : Type} : Construction V → Prop
  | ofBox _ is => ∀ i ∈ is, i.IsProper
  | _ => True

namespace Octagon

/-! ### Dimensions -/

theorem matricesKeep_isMirrored :
    MatricesKeep IsMirrored fun c => c.a ≠ c.b where
  proper _ proper := proper.distinct
  unbounded _ :=
    isMirrored_ofFn (fun _ _ _ _ => if_congr (opposite_inj.trans eq_comm) rfl rfl)
      fun _ _ => if_pos rfl
  tighten {_ _ c} mirrored distinct := by
    have mirror (i j : Nat) :
        (opposite j = c.a ∧ opposite i = c.b ∨
          opposite j = opposite c.b ∧ opposite i = opposite c.a) ↔
        (i = c.a ∧ j = c.b ∨ i = opposite c.b ∧ j = opposite c.a) := by
      constructor
      · rintro (⟨first, second⟩ | ⟨first, second⟩)
        · rw [← first, ← second, opposite_opposite, opposite_opposite]
          exact .inr ⟨rfl, rfl⟩
        · exact .inl ⟨opposite_inj.1 second, opposite_inj.1 first⟩
      · rintro (⟨rfl, rfl⟩ | ⟨rfl, rfl⟩)
        · exact .inr ⟨rfl, rfl⟩
        · exact .inl ⟨opposite_opposite _, opposite_opposite _⟩
    refine isMirrored_mapEntries mirrored.square (fun i left j right => ?_) fun i inside => ?_
    · rw [mirrored.coherent i left j right]
      exact if_congr (mirror i j) rfl rfl
    · -- both places of the bound are off the diagonal
      rw [if_neg, mirrored.diagonal i inside]
      rintro (⟨rfl, same⟩ | ⟨rfl, same⟩)
      · exact distinct same
      · exact distinct (opposite_inj.1 same).symm
  close mirrored closed := by
    obtain ⟨loop, -, rfl⟩ := close?_eq_some closed
    exact (mirrored.shortest loop).roundIntegers.zeroDiagonal_strengthen
  min mirrored mirrored' := mirrored.combine mirrored' rfl
  max mirrored mirrored' := mirrored.combine mirrored' rfl
  kept mirrored mirrored' := mirrored.combine (h := fun u v => if v ≤ u then u else .posInf)
    mirrored' rfl
  read {_ n _ f} mirrored inside := by
    have node {a : Nat} below : nodeOf a (f (nodeDim a)) < 2 * n :=
      nodeOf_lt.2 (inside _ (nodeDim_lt.2 below))
    refine isMirrored_ofFn (fun a left b right => ?_) fun a below => ?_
    · rw [nodeDim_opposite, nodeDim_opposite, nodeOf_opposite, nodeOf_opposite,
        mirrored.coherent _ (node left) _ (node right)]
    · exact mirrored.diagonal _ (node below)
  inserted {_ n _ places} mirrored length := by
    have node {a d e : Nat} (found : places.idxOf? e = some d) : nodeOf a d < 2 * n := by
      obtain ⟨inside, -⟩ := List.idxOf?_eq_some_iff.1 found
      exact nodeOf_lt.2 (length ▸ inside)
    refine isMirrored_ofFn (fun a _ b _ => ?_) fun a _ => ?_
    · rw [nodeDim_opposite, nodeDim_opposite]
      cases left : places.idxOf? (nodeDim a) with
      | none =>
        cases right : places.idxOf? (nodeDim b) <;>
          exact if_congr (opposite_inj.trans eq_comm) rfl rfl
      | some d =>
        cases right : places.idxOf? (nodeDim b) with
        | none => exact if_congr (opposite_inj.trans eq_comm) rfl rfl
        | some e =>
          simp only [nodeOf_opposite]
          exact mirrored.coherent _ (node left) _ (node right)
    · cases found : places.idxOf? (nodeDim a) with
      | none => exact if_pos rfl
      | some d => exact mirrored.diagonal _ (node found)
  zeroed _ mirrored := by
    refine isMirrored_mapEntries mirrored.square (fun a left b right => ?_) fun a inside => ?_
    · rw [mirrored.coherent a left b right, nodeDim_opposite, opposite_opposite]
      refine if_congr ⟨?_, ?_⟩ rfl rfl
      · rintro ⟨rfl, mem⟩
        exact ⟨rfl, by rwa [nodeDim_opposite] at mem⟩
      · rintro ⟨rfl, _⟩
        exact ⟨rfl, by rwa [nodeDim_opposite]⟩
    · rw [if_neg fun new => ne_opposite a new.1, mirrored.diagonal a inside]
  forgotten _ _ mirrored := by
    refine isMirrored_mapEntries mirrored.square (fun a left b right => ?_) fun a inside => ?_
    · rw [mirrored.coherent a left b right, nodeDim_opposite, nodeDim_opposite, opposite_opposite]
      exact if_congr (opposite_inj.trans eq_comm) rfl (if_congr or_comm
        (if_congr (by rw [decide_eq_decide.2 eq_comm]) rfl rfl) rfl)
    · rw [if_pos rfl, mirrored.diagonal a inside]

theorem matricesKeep_isRegular : MatricesKeep IsRegular NodeBound.IsProper where
  proper _ proper := proper
  unbounded n := by
    refine (matricesKeep_isMirrored.unbounded n).isRegular_ofFn fun a _ b _ => ?_
    split <;> exact ExtRat.noConfusion
  tighten regular proper := by
    refine (matricesKeep_isMirrored.tighten regular.isMirrored proper.distinct).isRegular_mapEntries
      regular.square fun i left j right => ?_
    split
    · exact ExtRat.min_ne_negInf (regular.proper i left j right) proper.proper
    · exact regular.proper i left j right
  close regular closed := by
    obtain ⟨loop, -, rfl⟩ := close?_eq_some closed
    exact (regular.shortest loop).toIsRegular.roundIntegers.zeroDiagonal_strengthen
  min regular regular' := regular.combine regular' rfl fun _ _ => ExtRat.min_ne_negInf
  max regular regular' := regular.combine regular' rfl fun _ _ => ExtRat.max_ne_negInf
  kept regular regular' := by
    refine regular.combine (h := fun u v => if v ≤ u then u else .posInf) regular' rfl
      fun u v proper _ => ?_
    split
    · exact proper
    · exact ExtRat.noConfusion
  read regular inside :=
    (matricesKeep_isMirrored.read regular.isMirrored inside).isRegular_ofFn fun _ _ _ _ =>
      regular.entry_ne_negInf _ _
  inserted {_ _ _ places} regular length := by
    refine (matricesKeep_isMirrored.inserted regular.isMirrored length).isRegular_ofFn
      fun a _ b _ => ?_
    have free : (if a = b then ExtRat.zero else .posInf) ≠ .negInf := by
      split <;> exact ExtRat.noConfusion
    cases left : places.idxOf? (nodeDim a) with
    | none => cases right : places.idxOf? (nodeDim b) <;> exact free
    | some d =>
      cases right : places.idxOf? (nodeDim b) with
      | none => exact free
      | some e => exact regular.entry_ne_negInf _ _
  zeroed dims regular := by
    refine (matricesKeep_isMirrored.zeroed dims regular.isMirrored).isRegular_mapEntries
      regular.square fun a left b right => ?_
    split
    · exact ExtRat.noConfusion
    · exact regular.proper a left b right
  forgotten dims project regular := by
    refine (matricesKeep_isMirrored.forgotten dims project regular.isMirrored).isRegular_mapEntries
      regular.square fun a left b right => ?_
    split
    · exact regular.proper a left b right
    · split
      · split <;> exact ExtRat.noConfusion
      · exact regular.proper a left b right

theorem marksKeep_true (inv : BoundMatrix → Nat → Prop) :
    MarksKeep inv (fun _ _ => True) fun _ _ => False := by
  constructor <;> simp

/-! ### Octagons -/

/-- The matrix has one row and one column for each node of the space, and is regular unless the
octagon is marked as empty. -/
structure IsRegular (o : Octagon) : Prop where
  square : o.IsSquare
  regular : o.empty = false → o.matrix.IsRegular o.space.size

theorem keeps_isRegular : domain.Keeps (fun c => c.IsValid ∧ c.HasProperRanges) IsRegular := by
  refine (keeps_marked matricesKeep_isRegular (marksKeep_true _)
    (fun _ _ _ admits distinct proper => ⟨distinct, proper admits.2⟩)
    fun c admits => movesKeep_false admits.1).congr fun o => ⟨fun h => ?_, fun h => ?_⟩
  · exact ⟨h.square, h.matrix⟩
  · exact ⟨rfl, h.square, h.regular, fun _ _ => trivial⟩

/-- Every octagon that is built from whole spaces, no points and boxes of proper intervals has a
square matrix with two nodes per dimension. -/
theorem built_octagons_regular {o : Octagon}
    (built : domain.Built (fun c => c.IsValid ∧ c.HasProperRanges) o) :
    o.matrix.IsSquare (2 * o.space.size) ∧ (o.empty = false →
      (∀ a < 2 * o.space.size, ∀ b < 2 * o.space.size,
        o.matrix.entry a b = o.matrix.entry (opposite b) (opposite a)) ∧
      (∀ a < 2 * o.space.size, o.matrix.entry a a = .zero) ∧
      ∀ a < 2 * o.space.size, ∀ b < 2 * o.space.size, o.matrix.entry a b ≠ .negInf) := by
  have h := keeps_isRegular.of_built built
  refine ⟨h.square, fun full => ?_⟩
  have regular := h.regular full
  exact ⟨fun a left b right => (regular.coherent a left b right).symm, regular.diagonal,
    regular.proper⟩

/-- Two counters that start at zero and go up together: widening drops the bounds on their values
and keeps those on their difference, in both places. -/
theorem counters_in_step_regular :
    let counters : Octagon :=
      ⟨⟨1, 1⟩, ⟨[[.fin 0, .posInf, .fin 0, .posInf], [.fin 0, .fin 0, .fin 0, .fin 0],
        [.fin 0, .posInf, .fin 0, .posInf], [.fin 0, .fin 0, .fin 0, .fin 0]]⟩, false, false, true⟩
    domain.Built (fun c => c.IsValid ∧ c.HasProperRanges) counters ∧ counters.empty = false ∧
      ∀ a < 4, ∀ b < 4, counters.matrix.entry a b =
        counters.matrix.entry (opposite b) (opposite a) ∧ counters.matrix.entry a b ≠ .negInf := by
  intro counters
  let request : Request := ⟨.widening, .standard, []⟩
  let zero : Interval := .ofExt (.fin 0) (.fin 0)
  let zeros : Octagon := ⟨⟨1, 1⟩, ⟨[[.fin 0, .fin 0, .posInf, .posInf],
    [.fin 0, .fin 0, .posInf, .posInf], [.posInf, .posInf, .fin 0, .fin 0],
    [.posInf, .posInf, .fin 0, .fin 0]]⟩, false, false, false⟩
  let ones : Octagon := ⟨⟨1, 1⟩, ⟨[[.fin 0, .fin 2, .fin 0, .fin 2],
    [.fin (-2), .fin 0, .fin (-2), .fin 0], [.fin 0, .fin 2, .fin 0, .fin 2],
    [.fin (-2), .fin 0, .fin (-2), .fin 0]]⟩, true, false, false⟩
  let successor (d : Nat) : LinearForm := ⟨.rational 1, .sparse [(d, .rational 1)]⟩
  have proper : ∀ i ∈ [zero, zero], i.IsProper := by
    intro i mem
    obtain rfl : i = zero := by simpa using mem
    exact ⟨ExtRat.noConfusion, ExtRat.noConfusion⟩
  have first : domain.Built (fun c => c.IsValid ∧ c.HasProperRanges) zeros :=
    Domain.built_of_any (c := .ofBox ⟨1, 1⟩ [zero, zero]) ⟨trivial, proper⟩
      (by simp [Construction.operands]) request (by decide +kernel)
  have second : domain.Built (fun c => c.IsValid ∧ c.HasProperRanges) ones :=
    Domain.built_of_any (c := .assignForms zeros [0, 1] [successor 0, successor 1])
      ⟨trivial, trivial⟩ (by simpa [Construction.operands] using first) request (by decide +kernel)
  have built : domain.Built (fun c => c.IsValid ∧ c.HasProperRanges) counters :=
    Domain.built_of_any (c := .widening zeros ones) ⟨trivial, trivial⟩
      (by simpa [Construction.operands] using ⟨first, second⟩) request (by decide +kernel)
  obtain ⟨-, regular⟩ := built_octagons_regular built
  obtain ⟨coherent, -, finite⟩ := regular rfl
  exact ⟨built, rfl, fun a left b right => ⟨coherent a left b right, finite a left b right⟩⟩

end Octagon

end Enclosure
