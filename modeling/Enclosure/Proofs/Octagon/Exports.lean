import Enclosure.Proofs.Exports
import Enclosure.Proofs.Octagon.Exactness

/-!
# Exported octagons

Each bound of the closed matrix on a sum or difference of dimensions is exported once, from the
first of its two places.
-/

namespace Enclosure

open List Op LinearConstraint

structure LinearConstraint.IsOctagonal (c : LinearConstraint) : Prop where
  loose : c.comparison ≠ .above
  few : c.form.nonzero.length ≤ 2
  magnitude : ∃ q, ∀ e ∈ c.form.nonzero, ∃ p, e.2.rational? = some p ∧ |p| = q

namespace Octagon

variable {request request' query : Request} {o a b : Octagon} {x : List Rat} {c : Rat} {s : Space}
  {bounds : List Interval} {coeffs : List Rat} {cs : List LinearConstraint}

/-! ### Direct bounds -/

def IsDirect (coeffs : List Rat) : Prop :=
  ∃ ds : List Nat, ds.length ≤ 2 ∧ (∀ d, d ∉ ds → coeffs.getD d 0 = 0) ∧
    ∃ q, ∀ d ∈ ds, |coeffs.getD d 0| = q

theorem IsDirect.map_mul (direct : IsDirect coeffs) (q : Rat) : IsDirect (coeffs.map (· * q)) := by
  obtain ⟨ds, few, others, p, magnitude⟩ := direct
  refine ⟨ds, few, fun d other => ?_, p * |q|, fun d mem => ?_⟩
  · rw [getD_map_mul, others d other, zero_mul]
  · rw [getD_map_mul, abs_mul, magnitude d mem]

theorem IsDirect.exists_directBounds? (direct : IsDirect coeffs) (c : Rat) :
    ∃ bs, direct? coeffs c = some bs := by
  obtain ⟨ds, few, others, p, magnitude⟩ := direct
  unfold direct?
  generalize shape : termsOf coeffs = terms
  have term (t : Nat × Rat) (mem : t ∈ terms) : t.1 ∈ ds ∧ |t.2| = p := by
    obtain ⟨place, nonzero⟩ := mem_terms.1 (shape ▸ mem)
    have value : coeffs.getD t.1 0 = t.2 := by
      rw [getD_eq_getElem?_getD, place, Option.getD_some]
    have matters : t.1 ∈ ds := by
      by_contra other
      exact nonzero (value.symm.trans (others t.1 other))
    exact ⟨matters, value ▸ magnitude t.1 matters⟩
  have nodup : (terms.map Prod.fst).Nodup := shape ▸ nodup_terms coeffs
  have length : terms.length ≤ 2 := by
    have subset : terms.map Prod.fst ⊆ ds := by
      intro d mem
      obtain ⟨t, inTerms, rfl⟩ := mem_map.1 mem
      exact (term t inTerms).1
    have bound := (subperm_of_subset nodup subset).length_le
    rw [length_map] at bound
    exact bound.trans few
  rcases terms with _ | ⟨t, _ | ⟨u, _ | ⟨_, _⟩⟩⟩
  · exact ⟨_, rfl⟩
  · exact ⟨_, rfl⟩
  · refine ⟨_, if_pos ?_⟩
    rw [ratAbs_eq, ratAbs_eq, (term t (by simp)).2, (term u (by simp)).2]
  · simp at length

theorem isDirect_of_isOctagonal {c : LinearConstraint} (octagonal : c.IsOctagonal)
    (others : ∀ d, d ∉ c.form.nonzero.map Prod.fst → coeffs.getD d 0 = 0)
    (values : ∀ e ∈ c.form.nonzero, ∃ q, e.2.rational? = some q ∧ coeffs.getD e.1 0 = -q) :
    IsDirect coeffs := by
  obtain ⟨p, magnitude⟩ := octagonal.magnitude
  refine ⟨c.form.nonzero.map Prod.fst, by simpa using octagonal.few, others, p, fun d mem => ?_⟩
  obtain ⟨e, entry, rfl⟩ := mem_map.1 mem
  obtain ⟨q, number, value⟩ := values e entry
  obtain ⟨r, number', size⟩ := magnitude e entry
  rw [value, abs_neg, Option.some.inj (number.symm.trans number'), size]

/-! ### Import -/

theorem isLoosened_eq_false {b : LinearBound} (direct : IsDirect b.coeffs)
    (loose : b.relation ≠ .below) : isLoosened b = false := by
  have kept {coeffs : List Rat} (direct : IsDirect coeffs) (c : Rat) :
      (direct? coeffs c).isNone = false := by
    obtain ⟨_, found⟩ := direct.exists_directBounds? c
    rw [found]
    rfl
  have halves : ∀ h ∈ halves b, ¬ (direct? h.1 h.2).isNone = true := by
    rw [forall_mem_halves, kept direct, kept (by simpa using direct.map_mul (-1))]
    simp
  rw [isLoosened, decide_eq_false loose, any_eq_false.2 halves]
  rfl

theorem settles_relaxAll (plain : ∀ c ∈ cs, c.IsPlain s.size)
    (octagonal : ∀ c ∈ cs, c.IsOctagonal) :
    Settles request (relaxAll bounds s cs) fun result =>
      ∀ bs, result = some bs → ∀ b ∈ bs, IsDirect b.coeffs ∧ b.relation ≠ .below := by
  induction cs with
  | nil => exact settles_pure (by simp)
  | cons c cs ih =>
    obtain ⟨here, there⟩ := forall_mem_cons.1 plain
    obtain ⟨first, later⟩ := forall_mem_cons.1 octagonal
    have relaxed : Settles request (LinearBound.relax c bounds s) _ :=
      LinearBound.settles_relax here.valid here.below here.regular
        (Comparison.isExpressible_of_plain here.comparison) (fun _ q direct => direct.map_mul q)
        fun _ _ => isDirect_of_isOctagonal first
    refine relaxed.bind fun result shape => ?_
    cases result with
    | none => exact settles_pure (by simp)
    | some bs =>
      refine (ih there later).bind fun rest shape' => settles_pure fun all found b mem => ?_
      obtain ⟨ds, rfl, rfl⟩ := Option.map_eq_some_iff.1 found
      rcases mem_append.1 mem with new | old
      · exact ⟨(shape bs rfl b new).1, (shape bs rfl b new).2 first.loose⟩
      · exact shape' ds rfl b old

theorem returns_meetLinear (square : o.IsSquare) (plain : ∀ c ∈ cs, c.IsPlain o.space.size)
    (octagonal : ∀ c ∈ cs, c.IsOctagonal) :
    Returns request (o.meetLinear cs) fun w => w.space = o.space ∧
      ∀ x, w.HasPoint x ↔ o.HasPoint x ∧ ∀ c ∈ cs, c.Holds x := by
  have settles : Settles request (o.meetLinear cs) fun _ => True := by
    unfold meetLinear
    dsimp only
    split
    · exact settles_pure trivial
    · rw [← space_close o] at plain
      refine (settles_relaxAll plain octagonal).bind fun result shape => ?_
      cases result with
      | none => exact settles_pure trivial
      | some bs =>
        have kept : bs.any isLoosened = false := any_eq_false.2 fun b mem => by
          simp [isLoosened_eq_false (shape bs rfl b mem).1 (shape bs rfl b mem).2]
        simp only [foldlM_addLinearBound, kept]
        exact settles_pure trivial
  refine ((reports_meetLinear square fun c mem => ⟨(plain c mem).valid, (plain c mem).below,
    (plain c mem).regular⟩).returns_of_settles settles).mono fun w h => ?_
  exact ⟨h.1.2, h.2⟩

/-! ### Export -/

def nodeSign (i : Nat) : Rat := if i % 2 = 0 then 1 else -1

theorem nodeValue_eq (x : List Rat) (i : Nat) :
    nodeValue x i = nodeSign i * x.getD (nodeDim i) 0 := by
  unfold nodeValue nodeSign
  split <;> ring

theorem abs_nodeSign (i : Nat) : |nodeSign i| = 1 := by
  unfold nodeSign
  split <;> simp

theorem nodeSign_opposite (i : Nat) : nodeSign (opposite i) = -nodeSign i := by
  unfold nodeSign opposite
  split <;> split <;> first | omega | simp

theorem ofTerms_pair {i j : Nat} (order : i < j) (p q c : Rat) :
    LinearForm.ofTerms [(i, .rational p), (j, .rational q)] (.rational c) =
      .ofRationals [(i, p), (j, q)] c := by
  have inserted : Terms.insert j (.rational q) [(i, .rational p)] =
      [(i, .rational p), (j, .rational q)] := by
    rw [Terms.insert, if_neg order.not_gt, if_neg order.ne', Terms.insert]
  exact congrArg (fun es => LinearForm.mk (.rational c) (.sparse es)) inserted

theorem entryConstraint?_spec {m : BoundMatrix} {i j : Nat} (distinct : i ≠ j)
    (found : m.entry i j = .fin c) : ∃ ts t,
      entryConstraint? m i j = some (.plain .atLeast (.ofRationals ts t)) ∧
        ts.length ≤ 2 ∧ (ts.map Prod.fst).Nodup ∧
        (∀ e ∈ ts, |e.2| = 1 ∧ (e.1 = nodeDim i ∨ e.1 = nodeDim j)) ∧
        ∀ x, 0 ≤ sumAt ts x + t ↔ nodeValue x i - nodeValue x j ≤ c := by
  have left : (if i % 2 = 0 then (-1) else - -1) = -nodeSign i := by
    unfold nodeSign
    split <;> rfl
  have right : (if j % 2 = 0 then 1 else -1) = nodeSign j := rfl
  unfold entryConstraint?
  rw [found]
  dsimp only
  rw [left, right]
  by_cases opposites : j = opposite i
  · rw [if_pos opposites]
    have factor : (-nodeSign i + nodeSign j) / 2 = -nodeSign i := by
      rw [opposites, nodeSign_opposite]
      ring
    refine ⟨[(nodeDim i, -nodeSign i)], c / 2, congrArg _ (by rw [factor]; rfl), by simp, by simp,
      by simp [abs_nodeSign], fun x => ?_⟩
    rw [opposites, nodeValue_opposite, nodeValue_eq, sumAt_cons, sumAt_nil]
    constructor <;> intro h <;> linarith
  · have apart : nodeDim i ≠ nodeDim j := fun same =>
      (eq_or_eq_opposite same.symm).elim distinct.symm opposites
    rw [if_neg opposites]
    split
    · rename_i order
      refine ⟨[(nodeDim i, -nodeSign i), (nodeDim j, nodeSign j)], c,
        congrArg _ (congrArg _ (ofTerms_pair order _ _ _)), by simp, by simpa using apart,
        by simp [abs_nodeSign], fun x => ?_⟩
      rw [nodeValue_eq, nodeValue_eq, sumAt_cons, sumAt_cons, sumAt_nil]
      constructor <;> intro h <;> linarith
    · refine ⟨[(nodeDim j, nodeSign j), (nodeDim i, -nodeSign i)], c,
        congrArg _ (congrArg _ (ofTerms_pair (by omega) _ _ _)), by simp, by simpa using apart.symm,
        by simp [abs_nodeSign], fun x => ?_⟩
      rw [nodeValue_eq, nodeValue_eq, sumAt_cons, sumAt_cons, sumAt_nil]
      constructor <;> intro h <;> linarith

theorem isOctagonal_ofRationals {ts : List (Nat × Rat)} {t : Rat} (few : ts.length ≤ 2)
    (units : ∀ e ∈ ts, |e.2| = 1) :
    (plain .atLeast (.ofRationals ts t)).IsOctagonal where
  loose := by simp [plain]
  few := by
    refine le_trans (length_filter_le _ _) ?_
    change (ts.map _).length ≤ 2
    simpa using few
  magnitude := by
    refine ⟨1, fun e mem => ?_⟩
    obtain ⟨u, term, rfl⟩ := mem_map.1 (LinearForm.mem_nonzero.1 mem).1
    exact ⟨u.2, rfl, units u term⟩

theorem isOctagonal_unsatisfiable : unsatisfiable.IsOctagonal where
  loose := by simp [unsatisfiable, plain]
  few := Nat.zero_le 2
  magnitude := ⟨0, fun _ mem => by cases mem⟩

theorem isFirstPlace_or (i j : Nat) :
    isFirstPlace i j = true ∨ isFirstPlace (opposite j) (opposite i) = true := by
  unfold isFirstPlace
  simp only [opposite_opposite, Bool.or_eq_true, Bool.and_eq_true, decide_eq_true_eq]
  by_cases same : i = opposite j
  · exact .inl (.inr ⟨same, by simp [same]⟩)
  · omega

theorem mem_toLinear {c : LinearConstraint} (full : o.close.empty = false) :
    c ∈ o.toLinear ↔ ∃ i < o.close.matrix.nodes, ∃ j < o.close.matrix.nodes,
      (i ≠ j ∧ isFirstPlace i j = true) ∧ entryConstraint? o.close.matrix i j = some c := by
  unfold toLinear
  rw [if_neg (by simp [full])]
  simp [and_assoc]

theorem holds_iff_constraints {m : BoundMatrix} {n : Nat} (regular : m.IsRegular n) :
    m.Holds x ↔ ∀ i < 2 * n, ∀ j < 2 * n, i ≠ j → isFirstPlace i j = true →
      ∀ c, entryConstraint? m i j = some c → c.Holds x := by
  have entry {i j : Nat} (left : i < 2 * n) (right : j < 2 * n) (distinct : i ≠ j) :
      .fin (nodeValue x i - nodeValue x j) ≤ m.entry i j ↔
        ∀ c, entryConstraint? m i j = some c → c.Holds x := by
    cases value : m.entry i j with
    | negInf => exact absurd value (regular.proper i left j right)
    | posInf => simp [entryConstraint?, value]
    | fin q =>
      obtain ⟨_, t, exported, -, -, -, holds⟩ := entryConstraint?_spec distinct value
      rw [ExtRat.fin_le_fin, ← holds x, exported]
      simp [holds_ofRationals, Comparison.Holds]
  constructor
  · intro holds i left j right distinct _
    exact (entry left right distinct).1 (holds i j)
  · intro all
    refine BoundMatrix.holds_of_square regular.square fun i left j right => ?_
    by_cases same : i = j
    · rw [← same, regular.diagonal i left, sub_self]
      exact le_refl _
    rcases isFirstPlace_or i j with first | second
    · exact (entry left right same).2 (all i left j right same first)
    · -- the two places of a difference have the same bound
      have mirrored : opposite j ≠ opposite i := fun h => same <| by
        rw [← opposite_opposite i, ← h, opposite_opposite]
      have bound := (entry (opposite_lt.2 right) (opposite_lt.2 left) mirrored).2
        (all _ (opposite_lt.2 right) _ (opposite_lt.2 left) mirrored second)
      rw [regular.coherent i left j right, nodeValue_opposite, nodeValue_opposite] at bound
      rwa [neg_sub_neg] at bound

theorem IsRegular.close (regular : o.IsRegular) : o.close.IsRegular := by
  have marked : Marked BoundMatrix.IsRegular (fun _ => True) o.space o :=
    ⟨rfl, regular.square, regular.regular, fun _ _ => trivial⟩
  have closed := marked.close matricesKeep_isRegular (marksKeep_true _) fun _ => id
  exact ⟨closed.square, closed.space.symm ▸ closed.matrix⟩

theorem isDescription_toLinear (regular : o.IsRegular) :
    IsDescription o.space o.toLinear o.HasPoint ∧ ∀ c ∈ o.toLinear, c.IsOctagonal := by
  cases full : o.close.empty with
  | true =>
    have exported : o.toLinear = [.unsatisfiable] := by
      unfold toLinear
      rw [if_pos full]
    rw [exported]
    exact ⟨isDescription_unsatisfiable fun x => not_hasPoint_of_empty_close regular.square full,
      by simpa using isOctagonal_unsatisfiable⟩
  | false =>
    have matrix : o.close.matrix.IsRegular o.space.size := by
      rw [← space_close o]
      exact regular.close.regular full
    have shape {c : LinearConstraint} (mem : c ∈ o.toLinear) :
        c.IsPlain o.space.size ∧ c.IsOctagonal := by
      obtain ⟨i, left, j, right, ⟨distinct, -⟩, exported⟩ := (mem_toLinear full).1 mem
      rw [matrix.square.nodes] at left right
      cases value : o.close.matrix.entry i j with
      | fin q =>
        obtain ⟨_, t, same, few, nodup, units, -⟩ := entryConstraint?_spec distinct value
        obtain rfl := Option.some.inj (exported.symm.trans same)
        refine ⟨isPlain_ofRationals nodup (fun e term => ?_) (.inr (.inl rfl)),
          isOctagonal_ofRationals few fun e term => (units e term).1⟩
        rcases (units e term).2 with here | here
        · exact here ▸ nodeDim_lt.2 left
        · exact here ▸ nodeDim_lt.2 right
      | _ => simp [entryConstraint?, value] at exported
    refine ⟨⟨fun c mem => (shape mem).1, fun x point => ?_⟩, fun c mem => (shape mem).2⟩
    rw [← hasPoint_close regular.square, hasPoint_iff, space_close, and_iff_right full,
      and_iff_right point, holds_iff_constraints matrix]
    simp only [mem_toLinear full, matrix.square.nodes]
    constructor
    · intro all i left j right distinct first c exported
      exact all c ⟨i, left, j, right, ⟨distinct, first⟩, exported⟩
    · rintro all c ⟨i, left, j, right, ⟨distinct, first⟩, exported⟩
      exact all i left j right distinct first c exported

theorem IsReliable.equates (left : a.IsReliable) (right : b.IsReliable) (same : a.space = b.space)
    (points : ∀ x, a.HasPoint x ↔ b.HasPoint x) : domain.Equates query a b := by
  have includes {a b : Octagon} (left : a.IsReliable) (right : b.IsReliable)
      (same : a.space = b.space) (points : ∀ x, a.HasPoint x → b.HasPoint x) :
      domain.Includes query a b := by
    have within : Ensures query False (a.isLeq b) _ :=
      ensures_isLeq left.formed right.formed same left.real
    refine (within.returns id).mono fun answer h => h.2 fun x inside => ?_
    exact (points x ⟨left.isPoint_iff.2 inside.2.1, inside⟩).2
  exact Domain.equates_of_includes (includes left right same fun x => (points x).1)
    (includes right left same.symm fun x => (points x).2)

theorem IsRegular.roundTrip (regular : o.IsRegular) (query : Request) :
    domain.RoundTrip request request' o fun w =>
      w.space = o.space ∧ (∀ x, w.HasPoint x ↔ o.HasPoint x) ∧
        (o.IsReliable → domain.Equates query w o) := by
  obtain ⟨describes, octagonal⟩ := isDescription_toLinear regular
  refine (gives_pure o.toLinear).returns ?_
  have marked : Yields ((top o.space).meetLinear o.toLinear) fun w =>
      w.MarkedOn w.space w.space.IsReal :=
    keeps_markedOn.meetLinear _ _ (keeps_markedOn.top o.space)
  have met : Ensures request' False ((top o.space).meetLinear o.toLinear) _ :=
    (returns_meetLinear (isSquare_top o.space) describes.plain octagonal).ensures
  refine ((met.and_yields marked).returns id).mono fun w h => ?_
  obtain ⟨⟨space, points⟩, mark⟩ := h
  have meets (x : List Rat) : w.HasPoint x ↔ o.space.IsPoint x ∧ ∀ c ∈ o.toLinear, c.Holds x := by
    rw [points, hasPoint_top]
  have same := describes.iff_of_meet (fun x inside => inside.1) meets
  refine ⟨space, same, fun reliable => ?_⟩
  exact IsReliable.equates ⟨space ▸ reliable.real, mark⟩ reliable space same

end Octagon

end Enclosure
