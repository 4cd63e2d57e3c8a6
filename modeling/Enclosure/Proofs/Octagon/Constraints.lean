import Enclosure.Proofs.Bounds
import Enclosure.Proofs.Octagon.Operations

/-!
# Octagons and linear constraints

The entries of a matrix bound single dimensions, and sums and differences of two.
-/

namespace Enclosure

open List Op

theorem nodeValue_node (x : List Rat) (d : Nat) (positive : Bool) :
    nodeValue x (node d positive) = if positive then x.getD d 0 else -x.getD d 0 := by
  cases positive with
  | true => exact nodeValue_two_mul x d
  | false =>
    change nodeValue x (2 * d + 1) = -x.getD d 0
    rw [← opposite_two_mul, nodeValue_opposite, nodeValue_two_mul]

theorem abs_mul_nodeValue (x : List Rat) (d : Nat) (q : Rat) :
    |q| * nodeValue x (node d (0 < q)) = q * x.getD d 0 := by
  rw [nodeValue_node]
  by_cases positive : 0 < q
  · rw [if_pos (by simpa using positive), abs_of_pos positive]
  · rw [if_neg (by simpa using positive), abs_of_nonpos (not_lt.1 positive), neg_mul_neg]

theorem abs_mul_nodeValue_neg (x : List Rat) (d : Nat) (q : Rat) :
    |q| * nodeValue x (node d (q < 0)) = -(q * x.getD d 0) := by
  have opposite := abs_mul_nodeValue x d (-q)
  simpa only [abs_neg, neg_pos, neg_mul] using opposite

namespace Octagon

variable {request : Request} {o : Octagon} {x : List Rat} {c : Rat} {bounds : List Interval}
  {terms : List (Nat × Rat)} {keep keep' : List Rat → Prop} {b : LinearBound}

/-! ### Ranges -/

theorem length_bounds (o : Octagon) : o.bounds.length = o.space.size := by
  unfold bounds
  split <;> simp

theorem isRational_bounds {i : Interval} (mem : i ∈ o.bounds) : i.IsRational := by
  unfold bounds at mem
  split at mem
  · rw [eq_of_mem_replicate mem]
    exact Interval.isRational_bottom
  · obtain ⟨d, -, rfl⟩ := mem_map.1 mem
    exact Interval.isRational_ofExt _ _

theorem HasPoint.inBox (h : o.HasPoint x) : InBox o.bounds x := by
  intro d i found
  rw [bounds, h.not_empty, if_neg Bool.false_ne_true, getElem?_map, Option.map_eq_some_iff] at found
  obtain ⟨e, inRange, rfl⟩ := found
  obtain ⟨-, rfl⟩ := List.getElem?_eq_some_iff.1 inRange
  rw [getElem_range]
  have up := h.holds (2 * d) (opposite (2 * d))
  have down := h.holds (opposite (2 * d)) (2 * d)
  rw [nodeValue_opposite, nodeValue_two_mul] at up down
  rw [opposite_two_mul] at up down
  constructor
  · change (o.matrix.entry (2 * d + 1) (2 * d)).half.neg ≤ _
    rwa [ExtRat.neg_le_fin, ExtRat.fin_le_half, two_mul, ← sub_eq_add_neg]
  · change _ ≤ (o.matrix.entry (2 * d) (2 * d + 1)).half
    rwa [ExtRat.fin_le_half, two_mul, ← sub_neg_eq_add]

/-! ### Bounds on nodes -/

def NodeBound.HoldsAt (b : NodeBound) (x : List Rat) : Prop :=
  .fin (nodeValue x b.a - nodeValue x b.b) ≤ b.bound

structure Narrows (o w : Octagon) (keep : List Rat → Prop) : Prop where
  square : w.IsSquare
  space : w.space = o.space
  keeps : ∀ x, o.HasPoint x → keep x → w.HasPoint x
  within : ∀ x, w.HasPoint x → o.HasPoint x

theorem Narrows.refl (square : o.IsSquare) (keep : List Rat → Prop) : o.Narrows o keep :=
  ⟨square, rfl, fun _ h _ => h, fun _ h => h⟩

theorem Narrows.trans {w v : Octagon} (h : o.Narrows w keep) (h' : w.Narrows v keep') :
    o.Narrows v fun x => keep x ∧ keep' x where
  square := h'.square
  space := h'.space.trans h.space
  keeps x inside both := h'.keeps x (h.keeps x inside both.1) both.2
  within x inside := h.within x (h'.within x inside)

theorem Narrows.mono {w : Octagon} (h : o.Narrows w keep)
    (weaker : ∀ x, o.HasPoint x → keep' x → keep x) : o.Narrows w keep' where
  square := h.square
  space := h.space
  keeps x inside kept := h.keeps x inside (weaker x inside kept)
  within := h.within

theorem narrows_tighten (square : o.IsSquare) (b : NodeBound) :
    o.Narrows (o.tighten b) b.HoldsAt where
  square := square.mapMatrix _ _ _ _
  space := rfl
  keeps x inside holds := by
    refine hasPoint_iff.2 ⟨inside.not_empty, inside.isPoint,
      BoundMatrix.holds_mapEntries square fun i _ j _ => ?_⟩
    split
    · rename_i place
      rw [ExtRat.min_eq]
      refine le_min (inside.holds i j) ?_
      -- both places of a bound are about the same difference
      rcases place with ⟨rfl, rfl⟩ | ⟨rfl, rfl⟩
      · exact holds
      · rwa [nodeValue_opposite, nodeValue_opposite, neg_sub_neg]
    · exact inside.holds i j
  within x inside := by
    refine hasPoint_iff.2 ⟨inside.not_empty, inside.isPoint, fun i j => ?_⟩
    by_cases within : i < 2 * o.space.size ∧ j < 2 * o.space.size
    · refine (inside.holds i j).trans ?_
      change (BoundMatrix.tighten _ _ _ _).entry i j ≤ _
      rw [BoundMatrix.tighten, BoundMatrix.IsSquare.entry_mapEntries square (absurd within)]
      split
      · rw [ExtRat.min_eq]
        exact min_le_left _ _
      · exact le_refl _
    · rw [BoundMatrix.IsSquare.entry_of_not_lt square within]
      exact ExtRat.le_posInf _

theorem narrows_tightenAll (square : o.IsSquare) (bs : List NodeBound) :
    o.Narrows (o.tightenAll bs) fun x => ∀ b ∈ bs, b.HoldsAt x := by
  induction bs generalizing o with
  | nil => exact .refl square _
  | cons b bs ih =>
    have first := narrows_tighten square b
    exact (first.trans (ih first.square)).mono fun x _ all => forall_mem_cons.1 all

theorem narrows_close (square : o.IsSquare) : o.Narrows o.close fun _ => True where
  square := square.close
  space := space_close o
  keeps _ inside _ := (hasPoint_close square).2 inside
  within _ inside := (hasPoint_close square).1 inside

/-! ### Linear bounds -/

theorem holdsAt_termBound {d : Nat} {q : Rat} (nonzero : q ≠ 0) :
    (termBound d q c).HoldsAt x ↔ q * x.getD d 0 ≤ c := by
  have magnitude : 0 < |q| := abs_pos.2 nonzero
  change ExtRat.fin (nodeValue x (node d (0 < q)) - nodeValue x (opposite (node d (0 < q)))) ≤
    .fin (c / q.abs * 2) ↔ _
  rw [nodeValue_opposite, sub_neg_eq_add, ← mul_two, ratAbs_eq, ExtRat.fin_le_fin,
    mul_le_mul_iff_left₀ two_pos, le_div_iff₀ magnitude, mul_comm, abs_mul_nodeValue]

theorem nodeValue_node_not (x : List Rat) (d : Nat) (positive : Bool) :
    nodeValue x (node d !positive) = -nodeValue x (node d positive) := by
  rw [nodeValue_node, nodeValue_node]
  cases positive with
  | true => rfl
  | false => exact (neg_neg _).symm

theorem holdsAt_pairBound {i j : Nat} {p q : Rat} (nonzero : p ≠ 0) (same : p.abs = q.abs) :
    (pairBound i p j q c).HoldsAt x ↔ p * x.getD i 0 + q * x.getD j 0 ≤ c := by
  have magnitude : 0 < |p| := abs_pos.2 nonzero
  rw [ratAbs_eq, ratAbs_eq] at same
  change ExtRat.fin (nodeValue x (node i (0 < p)) - nodeValue x (node j !(0 < q))) ≤
    .fin (c / p.abs) ↔ _
  rw [nodeValue_node_not, sub_neg_eq_add, ratAbs_eq, ExtRat.fin_le_fin, le_div_iff₀ magnitude,
    mul_comm, mul_add, abs_mul_nodeValue, same, abs_mul_nodeValue]

theorem holdsAt_directBounds?_iff {bs : List NodeBound} (nonzero : ∀ t ∈ terms, t.2 ≠ 0)
    (found : directBounds? terms c = some bs) :
    (∀ b ∈ bs, b.HoldsAt x) ↔ (terms ≠ [] → sumAt terms x ≤ c) := by
  unfold directBounds? at found
  split at found
  · obtain rfl := Option.some.inj found
    simp
  · rename_i d q
    obtain rfl := Option.some.inj found
    rw [forall_mem_singleton, holdsAt_termBound (nonzero (d, q) (by simp))]
    simp
  · rename_i i p j q
    split at found
    · rename_i same
      obtain rfl := Option.some.inj found
      rw [forall_mem_singleton, holdsAt_pairBound (nonzero (i, p) (by simp)) same]
      simp
    · simp at found
  · simp at found

theorem leastValue_le (inBox : InBox bounds x) (d : Nat) (q : Rat) :
    leastValue bounds d q ≤ .fin (q * x.getD d 0) := by
  have has : (bounds.getD d (.top .rational)).Has (x.getD d 0) := by
    by_cases inside : d < bounds.length
    · rw [getD_eq_getElem _ _ inside]
      exact inBox d _ (getElem?_eq_getElem inside)
    · rw [getD_eq_default _ _ (not_lt.1 inside)]
      exact Interval.has_top _
  unfold leastValue
  rw [ExtRat.mul_comm]
  split
  · rename_i positive
    exact ExtRat.mul_le_mul_left (ExtRat.fin_le_fin.2 positive.le) has.1
  · rename_i negative
    exact ExtRat.mul_le_mul_left_of_nonpos (ExtRat.fin_le_fin.2 (not_lt.1 negative)) has.2

theorem foldlM_add?_le {α : Type} {f : α → ExtRat} {g : α → Rat} (l : List α)
    (le : ∀ e ∈ l, f e ≤ .fin (g e)) {acc z : ExtRat} {s : Rat} (start : acc ≤ .fin s)
    (run : (l.map f).foldlM ExtRat.add? acc = some z) : z ≤ .fin (s + (l.map g).sum) := by
  induction l generalizing acc s with
  | nil =>
    obtain rfl : acc = z := by simpa using run
    simpa using start
  | cons e l ih =>
    obtain ⟨next, sum, run⟩ := Option.bind_eq_some_iff.1 run
    have step : next ≤ .fin (s + g e) := by
      rw [← ExtRat.add_of_add? sum]
      exact add_le_add start (le e (by simp))
    rw [map_cons, sum_cons, ← add_assoc]
    exact ih (fun e mem => le e (by simp [mem])) step run

theorem sum_zipIdx_eq (places : List ((Nat × Rat) × Nat)) (sub : places ⊆ terms.zipIdx)
    (nodup : places.Nodup) (g : (Nat × Rat) × Nat → Rat) :
    (terms.zipIdx.map g).sum = (places.map g).sum +
      ((terms.zipIdx.filter fun e => !(places.map Prod.snd).contains e.2).map g).sum := by
  have distinct : terms.zipIdx.Nodup := by
    apply Nodup.of_map Prod.snd
    rw [zipIdx_map_snd]
    exact nodup_range'
  have chosen : (terms.zipIdx.filter fun e => (places.map Prod.snd).contains e.2).Perm places := by
    refine (perm_ext_iff_of_nodup (distinct.filter _) nodup).2 fun e => ?_
    rw [mem_filter, contains_iff_mem, mem_map]
    constructor
    · rintro ⟨mem, p, inPlaces, same⟩
      have left := mem_zipIdx_iff_getElem?.1 mem
      have right := mem_zipIdx_iff_getElem?.1 (sub inPlaces)
      rw [same] at right
      rwa [Prod.ext (Option.some.inj (left.symm.trans right)) same.symm]
    · exact fun inPlaces => ⟨sub inPlaces, e, inPlaces, rfl⟩
  have all := filter_append_perm (fun e => (places.map Prod.snd).contains e.2) terms.zipIdx
  rw [← (all.map g).sum_eq, map_append, sum_append, (chosen.map g).sum_eq]

theorem sumAt_le_of_sumWithout (inBox : InBox bounds x) (le : sumAt terms x ≤ c)
    (places : List ((Nat × Rat) × Nat)) (sub : places ⊆ terms.zipIdx) (nodup : places.Nodup)
    {r : Rat}
    (found : sumWithout (terms.map fun t => leastValue bounds t.1 t.2) (places.map Prod.snd) =
      some r) :
    sumAt (places.map Prod.fst) x ≤ c - r := by
  obtain ⟨z, run, finite⟩ := Option.bind_eq_some_iff.1 found
  obtain rfl := ExtRat.fin?_eq_some.1 finite
  rw [zipIdx_map, filter_map, map_map] at run
  let value (e : (Nat × Rat) × Nat) : Rat := e.1.2 * x.getD e.1.1 0
  let others := terms.zipIdx.filter fun e => !(places.map Prod.snd).contains e.2
  have least : ExtRat.fin r ≤ .fin (0 + (others.map value).sum) :=
    foldlM_add?_le others (fun e _ => leastValue_le inBox e.1.1 e.1.2) (le_refl (ExtRat.fin 0)) run
  have total : (terms.zipIdx.map value).sum = (places.map value).sum + (others.map value).sum :=
    sum_zipIdx_eq places sub nodup value
  have all : (terms.zipIdx.map value).sum = sumAt terms x := by
    rw [sumAt, ← zipIdx_map_fst 0 terms, map_map, zipIdx_map_fst]
    rfl
  have part : (places.map value).sum = sumAt (places.map .fst) x := by
    rw [sumAt, map_map]
    rfl
  rw [ExtRat.fin_le_fin] at least
  linarith

theorem holdsAt_of_mem_impliedBounds (nonzero : ∀ t ∈ terms, t.2 ≠ 0) (inBox : InBox bounds x)
    (le : sumAt terms x ≤ c) : ∀ b ∈ impliedBounds terms c bounds, b.HoldsAt x := by
  intro b mem
  obtain ⟨⟨⟨i, p⟩, k⟩, first, mem⟩ := mem_flatMap.1 mem
  have matters : p ≠ 0 := nonzero (i, p) (fst_mem_of_mem_zipIdx first)
  rcases mem_append.1 mem with single | pair
  · -- one term, when all others have their least values
    obtain ⟨r, found, rfl⟩ := Option.map_eq_some_iff.1 (Option.mem_toList.1 single)
    refine (holdsAt_termBound matters).2 ?_
    simpa using sumAt_le_of_sumWithout inBox le [((i, p), k)]
      (by simpa using first) (nodup_singleton _) found
  · -- two terms of one magnitude
    obtain ⟨⟨⟨j, q⟩, l⟩, second, found⟩ := mem_filterMap.1 pair
    dsimp only at found
    split at found
    · rename_i apart
      obtain ⟨r, rest, rfl⟩ := Option.map_eq_some_iff.1 found
      refine (holdsAt_pairBound matters apart.2).2 ?_
      have distinct : [((i, p), k), ((j, q), l)].Nodup := by
        simp [apart.1.ne]
      simpa using sumAt_le_of_sumWithout inBox le [((i, p), k), ((j, q), l)]
        (by simp [first, second]) distinct rest
    · simp at found

theorem ne_zero_of_mem_terms {coeffs : List Rat} : ∀ t ∈ termsOf coeffs, t.2 ≠ 0 := by
  intro t mem
  exact (mem_terms.1 mem).2

def direct? (coeffs : List Rat) (c : Rat) : Option (List NodeBound) :=
  directBounds? (termsOf coeffs) c

def boundsOf (bounds : List Interval) (coeffs : List Rat) (c : Rat) : List NodeBound :=
  (direct? coeffs c).getD (impliedBounds (termsOf coeffs) c bounds)

/-- The one or two half-spaces that a bound stands for, if it need not be strict. -/
def halves (b : LinearBound) : List (List Rat × Rat) :=
  (b.coeffs, b.bound) ::
    if b.relation = .equal then [(b.coeffs.map (- ·), -b.bound)] else []

def nodeBounds (bounds : List Interval) (b : LinearBound) : List NodeBound :=
  (halves b).flatMap fun h => boundsOf bounds h.1 h.2

def isLoosened (b : LinearBound) : Bool :=
  b.relation = .below || (halves b).any fun h => (direct? h.1 h.2).isNone

theorem addBound_eq (o : Octagon) (coeffs : List Rat) (c : Rat) (bounds : List Interval) :
    o.addBound coeffs c bounds =
      answer (direct? coeffs c).isNone (o.tightenAll (boundsOf bounds coeffs c)) := by
  unfold addBound boundsOf
  dsimp only
  split
  · rename_i found
    rw [show direct? coeffs c = some _ from found]
    rfl
  · rename_i none
    rw [show direct? coeffs c = .none from none]
    rfl

theorem tightenAll_append (o : Octagon) (cs ds : List NodeBound) :
    o.tightenAll (cs ++ ds) = (o.tightenAll cs).tightenAll ds := foldl_append

theorem addLinearBound_eq (bounds : List Interval) (o : Octagon) (b : LinearBound) :
    addLinearBound bounds o b = answer (isLoosened b) (o.tightenAll (nodeBounds bounds b)) := by
  unfold addLinearBound isLoosened nodeBounds halves
  cases kind : b.relation with
  | atMost => simp [addBound_eq]
  | below => simp [addBound_eq, markInexact_answer]
  | equal => simp [addBound_eq, tightenAll_append, answer_bind]

theorem foldlM_addLinearBound (bounds : List Interval) (o : Octagon) (bs : List LinearBound) :
    bs.foldlM (addLinearBound bounds) o =
      answer (bs.any isLoosened) (o.tightenAll (bs.flatMap (nodeBounds bounds))) := by
  induction bs generalizing o with
  | nil => rfl
  | cons b bs ih =>
    simp only [foldlM_cons, addLinearBound_eq, ih, answer_bind, any_cons, flatMap_cons,
      tightenAll_append]

theorem holdsAt_of_mem_boundsOf {coeffs : List Rat} (inBox : InBox bounds x)
    (le : dot coeffs x ≤ c) : ∀ b ∈ boundsOf bounds coeffs c, b.HoldsAt x := by
  rw [dot_eq_sumAt] at le
  unfold boundsOf
  cases found : direct? coeffs c with
  | none => exact holdsAt_of_mem_impliedBounds ne_zero_of_mem_terms inBox le
  | some bs => exact (holdsAt_directBounds?_iff ne_zero_of_mem_terms found).2 fun _ => le

theorem forall_mem_halves {p : List Rat × Rat → Prop} :
    (∀ h ∈ halves b, p h) ↔ p (b.coeffs, b.bound) ∧
      (b.relation = .equal → p (b.coeffs.map (- ·), -b.bound)) := by
  unfold halves
  split <;> simp_all

theorem holdsAt_iff_halves (kept : b.relation ≠ .below) :
    (∀ h ∈ halves b, dot h.1 x ≤ h.2) ↔ b.holdsAt x = true := by
  rw [forall_mem_halves, dot_map_neg, neg_le_neg_iff, LinearBound.holdsAt]
  cases kind : b.relation with
  | below => exact absurd kind kept
  | atMost => simp [BoundRelation.holds]
  | equal => simp [BoundRelation.holds, ← le_antisymm_iff]

theorem holdsAt_of_mem_nodeBounds (inBox : InBox bounds x)
    (holds : b.holdsAt x = true) : ∀ c ∈ nodeBounds bounds b, c.HoldsAt x := by
  have halves : ∀ h ∈ halves b, dot h.1 x ≤ h.2 := by
    by_cases strict : b.relation = .below
    · -- that the bound is strict is not kept
      have less : dot b.coeffs x < b.bound := by
        simpa [LinearBound.holdsAt, BoundRelation.holds, strict] using holds
      exact forall_mem_halves.2 ⟨less.le, by simp [strict]⟩
    · exact (holdsAt_iff_halves strict).2 holds
  exact forall_mem_flatMap.2 fun h mem => holdsAt_of_mem_boundsOf inBox (halves h mem)

theorem HasPoint.has_pairRange (h : o.HasPoint x) {i j : Nat} {p q : Rat} (same : p.abs = q.abs) :
    (pairRange o.matrix i p j q).Has (p * x.getD i 0 + q * x.getD j 0) := by
  have magnitude : |p| = |q| := by rwa [← ratAbs_eq, ← ratAbs_eq]
  have scaled (a b : Nat) : .fin (|p| * (nodeValue x a - nodeValue x b)) ≤
      (o.matrix.entry a b).mul (.fin p.abs) := by
    rw [ratAbs_eq, ExtRat.mul_comm]
    exact ExtRat.mul_le_mul_left (ExtRat.fin_le_fin.2 (abs_nonneg p)) (h.holds a b)
  constructor
  · have down := scaled (node i (p < 0)) (node j (0 < q))
    rw [mul_sub, abs_mul_nodeValue_neg, magnitude, abs_mul_nodeValue, ← neg_add'] at down
    exact ExtRat.neg_le_fin.2 down
  · have up := scaled (node i (0 < p)) (node j (q < 0))
    rwa [mul_sub, abs_mul_nodeValue, magnitude, abs_mul_nodeValue_neg, sub_neg_eq_add] at up

/-! ### Constraints -/

variable {cs : List LinearConstraint} {s : Space}

theorem ensures_relaxAll (length : bounds.length = s.size) (ranges : ∀ i ∈ bounds, i.Valid)
    (valid : ∀ c ∈ cs, c.form.Valid ∧ c.form.Below s.size) :
    Ensures request True (relaxAll bounds s cs) fun result =>
      ∀ x, s.IsPoint x → InBox bounds x → (∀ c ∈ cs, c.Admits x) →
        ∃ bs, result = some bs ∧ ∀ b ∈ bs, b.holdsAt x = true := by
  induction cs with
  | nil => exact ensures_pure fun x _ _ _ => ⟨[], rfl, by simp⟩
  | cons c cs ih =>
    rw [forall_mem_cons] at valid
    refine (LinearBound.ensures_relax valid.1.1 length ranges valid.1.2
      fun _ _ _ => trivial).bind ?_
    rintro result ⟨-, first⟩
    cases result with
    | none =>
      refine ensures_pure fun x point box admits => ?_
      obtain ⟨bs, impossible, -⟩ := first x point box (admits c (by simp))
      simp at impossible
    | some bs =>
      refine (ih valid.2).bind fun rest others => ensures_pure fun x point box admits => ?_
      rw [forall_mem_cons] at admits
      obtain ⟨_, same, holds⟩ := first x point box admits.1
      obtain rfl := Option.some.inj same
      obtain ⟨es, rfl, holds'⟩ := others x point box admits.2
      exact ⟨bs ++ es, rfl, forall_mem_append.2 ⟨holds, holds'⟩⟩

theorem ensures_meetLinear (square : o.IsSquare)
    (valid : ∀ c ∈ cs, c.form.Valid ∧ c.form.Below o.space.size) :
    Ensures request True (o.meetLinear cs) fun w =>
      o.Narrows w fun x => ∀ c ∈ cs, c.Admits x := by
  have closed := narrows_close square
  unfold meetLinear
  dsimp only
  split
  · exact ensures_pure (closed.mono fun _ _ _ => trivial)
  · have length : o.close.bounds.length = o.close.space.size := length_bounds _
    have ranges : ∀ i ∈ o.close.bounds, i.Valid := fun _ mem => (isRational_bounds mem).valid
    refine (ensures_relaxAll length ranges (closed.space ▸ valid)).bind fun result relaxed => ?_
    cases result with
    | none =>
      -- some constraint cannot be satisfied at all
      refine ensures_pure ⟨isSquare_bottom _, closed.space, fun x inside admits => ?_,
        fun x inside => absurd inside not_hasPoint_bottom⟩
      have inClose := (hasPoint_close square).2 inside
      obtain ⟨bs, impossible, -⟩ := relaxed x inClose.isPoint inClose.inBox admits
      simp at impossible
    | some bs =>
      have narrows := narrows_tightenAll square.close (bs.flatMap (nodeBounds o.close.bounds))
      simp only [foldlM_addLinearBound, answer_map]
      refine .markInexactIf (ensures_pure
        (((closed.trans narrows).trans (narrows_close narrows.square)).mono ?_))
      intro x inside admits
      have inClose := (hasPoint_close square).2 inside
      obtain ⟨_, same, holds⟩ := relaxed x inClose.isPoint inClose.inBox admits
      obtain rfl := Option.some.inj same
      exact ⟨⟨trivial, forall_mem_flatMap.2 fun b mem =>
        holdsAt_of_mem_nodeBounds inClose.inBox (holds b mem)⟩, trivial⟩

end Octagon

end Enclosure
