import Enclosure.Proofs.Spaces
import Enclosure.Proofs.Widening

/-!
# Operations on boxes lose no points

The lattice operations combine two boxes dimension by dimension.
-/

namespace Enclosure

open List Op SpaceChange

theorem InBox.readAt {bs : List Interval} {x : List Rat} (h : InBox bs x) {dims : List Nat}
    (inside : ∀ d ∈ dims, d < bs.length) (i : Interval) :
    InBox (dims.map (bs.getD · i)) (readAt dims x) := by
  intro d j found
  rw [getElem?_map, Option.map_eq_some_iff] at found
  obtain ⟨e, place, rfl⟩ := found
  rw [getD_readAt place, getD_eq_getElem _ _ (inside e (mem_of_getElem? place))]
  exact h e _ (getElem?_eq_getElem _)

namespace Box

variable {k : Kind} {s : Space} {bs xs ys : List Interval} {x : List Rat} {a b v w : Box}
  {request : Request} {risk : Prop} {c : SpaceChange}

/-- The box is well formed and has bounds of a given kind. -/
structure IsOf (k : Kind) (v : Box) : Prop where
  formed : v.IsFormed
  kind : ∀ i ∈ v.bounds k, i.IsOf k

/-- The box is well formed, and its bounds are of a given kind with values of the kind. -/
structure Fits (k : Kind) (v : Box) : Prop where
  formed : v.IsFormed
  bounds : ∀ i ∈ v.bounds k, i.Fits k

theorem fits_rational_iff : v.Fits .rational ↔ v.IsOf .rational := by
  constructor
  · intro h
    exact ⟨h.formed, fun i mem => (h.bounds i mem).isOf⟩
  · intro h
    exact ⟨h.formed, fun i mem => (Interval.isOf_rational_iff.1 (h.kind i mem)).fits⟩

theorem fits_empty (s : Space) : (empty s).Fits k where
  formed := trivial
  bounds i mem := by
    rw [eq_of_mem_replicate mem]
    exact Interval.fits_bottom k

theorem ensures_make (length : bs.length = s.size) (kinds : ∀ i ∈ bs, i.Fits k) :
    Op.Ensures request risk (Op.ofExcept (make s bs)) fun w =>
      w.Fits k ∧ w.space = s ∧ ∀ x, w.HasPoint x ↔ s.IsPoint x ∧ InBox bs x := by
  obtain ⟨w, run, formed, space, points⟩ := make_spec length
  refine ensures_ofExcept run ⟨⟨formed, ?_⟩, space, points⟩
  rw [make, if_neg (not_not.2 length), Except.ok.injEq] at run
  subst run
  split
  · exact (fits_empty s).bounds
  · exact kinds

/-! ### Lattice operations -/

theorem ensures_requireSame (operation : DomainOperation) (same : a.space = b.space) :
    Ensures request risk (requireSame operation a b) fun _ => True := by
  rw [requireSame, if_pos same]
  exact ensures_pure trivial

theorem ensures_isLeq (ha : a.IsFormed) (hb : b.IsFormed) (same : a.space = b.space) :
    Ensures request risk (a.isLeq b) fun answer =>
      answer = true → ∀ x, a.HasPoint x → b.HasPoint x := by
  apply (ensures_requireSame _ same).bind
  intro _ _
  exact ensures_pure fun within x inside => .of_within ha hb same within inside

theorem fits_zipWith {f : Interval → Interval → Interval}
    (closed : ∀ {i j : Interval}, i.Fits k → j.Fits k → (f i j).Fits k)
    (hx : ∀ i ∈ xs, i.Fits k) (hy : ∀ i ∈ ys, i.Fits k) : ∀ i ∈ zipWith f xs ys, i.Fits k := by
  intro i mem
  obtain ⟨d, found⟩ := getElem?_of_mem mem
  rw [getElem?_zipWith] at found
  split at found
  · rename_i left right
    rw [← Option.some.inj found]
    exact closed (hx _ (mem_of_getElem? left)) (hy _ (mem_of_getElem? right))
  · cases found

section

variable (ha : a.Fits k) (hb : b.Fits k) (same : a.space = b.space)
include ha hb same

theorem ensures_meet :
    Ensures request risk (a.meet b) fun w =>
      w.Fits k ∧ w.space = a.space ∧ ∀ x, a.HasPoint x → b.HasPoint x → w.HasPoint x := by
  apply (ensures_requireSame _ same).bind
  intro _ _
  cases a with
  | empty s => exact ensures_pure ⟨fits_empty s, rfl, fun x inA => inA.elim⟩
  | ranges s xs =>
    cases b with
    | empty t => exact ensures_pure ⟨fits_empty s, rfl, fun x _ inB => inB.elim⟩
    | ranges t ys =>
      obtain rfl : s = t := same
      have length := length_zipWith ha.formed hb.formed .meet
      apply (ensures_make length (fits_zipWith (·.meet) ha.bounds hb.bounds)).mono
      intro w ⟨hw, space, points⟩
      refine ⟨hw, space, fun x inA inB => (points x).2 ⟨inA.1, inBox_zipWith ?_⟩⟩
      intro d i j left right
      exact (inA.2 d i left).meet (inB.2 d j right)

theorem ensures_join :
    Ensures request risk (a.join b) fun w =>
      w.Fits k ∧ w.space = a.space ∧ ∀ x, a.HasPoint x ∨ b.HasPoint x → w.HasPoint x := by
  apply (ensures_requireSame _ same).bind
  intro _ _
  cases a with
  | empty s => exact ensures_pure ⟨hb, same.symm, fun x inside => inside.resolve_left id⟩
  | ranges s xs =>
    cases b with
    | empty t => exact ensures_pure ⟨ha, rfl, fun x inside => inside.resolve_right id⟩
    | ranges t ys =>
      obtain rfl : s = t := same
      have length := length_zipWith ha.formed hb.formed .join
      apply Ensures.markInexactIf
      apply (ensures_make length (fits_zipWith (·.join) ha.bounds hb.bounds)).mono
      intro w ⟨hw, space, points⟩
      refine ⟨hw, space, fun x inside => ?_⟩
      refine (points x).2 ⟨inside.elim (·.1) (·.1), inBox_zipWith ?_⟩
      intro d i j left right
      exact .join (inside.imp (·.2 d i left) (·.2 d j right))

theorem ensures_widening :
    Ensures request risk (a.widening b) fun w =>
      w.Fits k ∧ w.space = a.space ∧ ∀ x, a.HasPoint x ∨ b.HasPoint x → w.HasPoint x := by
  have includes : Ensures request risk (a.widening b) _ :=
    (wideningStops k request).ensures_widening (fun _ _ => ensures_isLeq) ha.formed hb.formed same
  have kinds : Ensures request risk (a.widening b) fun w => ∀ i ∈ w.bounds k, i.Fits k := by
    apply (ensures_requireSame _ same).bind
    intro _ _
    cases a with
    | empty s => exact ensures_pure hb.bounds
    | ranges s xs =>
      cases b with
      | empty t => exact ensures_pure ha.bounds
      | ranges t ys =>
        obtain rfl : s = t := same
        have length := length_zipWith ha.formed hb.formed .widening
        exact (ensures_make length
          (fits_zipWith (·.widening) ha.bounds hb.bounds)).mono fun w h => h.1.bounds
  exact (includes.and kinds).mono fun w h => ⟨⟨h.1.1, h.2⟩, h.1.2⟩

end

/-! ### Dimensions -/

theorem fits_filler (project : Bool) : (filler k project).Fits k := by
  cases project
  · exact Interval.fits_top k
  · exact ⟨Number.fits_zero k, Number.fits_zero k⟩

theorem isEmpty_filler (project : Bool) : (filler k project).isEmpty = false := by
  cases project <;> rfl

theorem has_filler {project : Bool} {q : Rat} (zero : project = true → q = 0) :
    (filler k project).Has q := by
  cases project with
  | false => exact ⟨ExtRat.negInf_le _, ExtRat.le_posInf _⟩
  | true => exact zero rfl ▸ ⟨le_refl _, le_refl _⟩

theorem insertInto_spec (hv : (ranges s bs).Fits k) (fits : c.Inserts s) (project : Bool) :
    (c.insertInto (filler k project) bs).length = (s.grow c).size ∧
      ∀ i ∈ c.insertInto (filler k project) bs, i.Fits k ∧ i.isEmpty = false := by
  obtain ⟨size, full⟩ := hv.formed
  constructor
  · rw [length_insertInto, size]
    exact fits.size_grow.symm
  · intro i mem
    obtain ⟨j, found⟩ := getElem?_of_mem mem
    have reach : ∀ d ∈ c.dims, d ≤ bs.length := size.symm ▸ fits.reach
    rcases getElem?_insertInto fits.sorted reach found with ⟨d, old, -⟩ | ⟨rfl, -⟩
    · have old := mem_of_getElem? old
      exact ⟨hv.bounds i old, full i old⟩
    · refine ⟨fits_filler project, ?_⟩
      cases project <;> rfl

theorem removeFrom_spec (hv : (ranges s bs).Fits k) (fits : c.Removes s) :
    (c.removeFrom bs).length = Space.size ⟨s.ints - c.ints, s.reals - c.reals⟩ ∧
      (∀ i ∈ c.removeFrom bs, i.Fits k ∧ i.isEmpty = false) ∧
      ∀ i d : Nat, (c.kept s.size)[i]? = some d → (c.removeFrom bs)[i]? = bs[d]? := by
  obtain ⟨size, full⟩ := hv.formed
  have below {d : Nat} (mem : d ∈ c.kept s.size) : d < bs.length :=
    size.symm ▸ lt_of_mem_kept mem
  rw [removeFrom_eq bs (.top k), size]
  refine ⟨by rw [length_map]; exact fits.length_kept, fun i mem => ?_, fun i d found => ?_⟩
  · obtain ⟨d, kept, rfl⟩ := mem_map.1 mem
    rw [getD_eq_getElem _ _ (below kept)]
    exact ⟨hv.bounds _ (getElem_mem _), full _ (getElem_mem _)⟩
  · simp [found, below (mem_of_getElem? found)]

theorem permute_spec {p : Permutation} (hv : (ranges s bs).Fits k) (valid : p.Valid s.size) :
    ∃ bs', p.permute bs = .ok bs' ∧ bs'.length = s.size ∧ (∀ i ∈ bs', i ∈ bs) ∧
      ∀ y, y.length = s.size →
        (InBox bs' y ↔ InBox bs (readAt ((range s.size).map p.image) y)) := by
  obtain ⟨size, -⟩ := hv.formed
  have inside : ∀ d ∈ (range s.size).map p.preimage, d < bs.length := by
    intro d mem
    obtain ⟨e, inRange, rfl⟩ := mem_map.1 mem
    exact size.symm ▸ valid.preimage_lt (mem_range.1 inRange)
  refine ⟨_, valid.permute_eq size (.top k), by simp, fun i mem => ?_, fun y length => ⟨?_, ?_⟩⟩
  · obtain ⟨d, moved, rfl⟩ := mem_map.1 mem
    rw [getD_eq_getElem _ _ (inside d moved)]
    exact getElem_mem _
  · intro new d i found
    obtain ⟨below, rfl⟩ := List.getElem?_eq_some_iff.1 found
    have below : d < s.size := size ▸ below
    rw [getD_readAt (d := p.image d) (by simp [below])]
    refine new (p.image d) _ ?_
    simp [valid.image_lt below, valid.preimage_image below, size, below]
  · intro old
    have back := valid.readAt_preimage_image length
    exact back ▸ old.readAt inside _

theorem length_foldl_set {α : Type} (dims : List Nat) (xs : List α) (fill : α) :
    (dims.foldl (fun xs d => xs.set d fill) xs).length = xs.length := by
  induction dims generalizing xs with
  | nil => rfl
  | cons d dims ih => rw [foldl_cons, ih, length_set]

theorem getElem?_foldl_set {α : Type} {dims : List Nat} {xs : List α} {fill x : α} {j : Nat}
    (found : (dims.foldl (fun xs d => xs.set d fill) xs)[j]? = some x) :
    xs[j]? = some x ∧ j ∉ dims ∨ x = fill ∧ j ∈ dims := by
  induction dims generalizing xs with
  | nil => exact .inl ⟨found, by simp⟩
  | cons d dims ih =>
    rcases ih found with ⟨old, others⟩ | ⟨new, mem⟩
    · rw [getElem?_set] at old
      split at old
      · rename_i same
        split at old
        · exact .inr ⟨(Option.some.inj old).symm, by simp [same]⟩
        · cases old
      · rename_i other
        exact .inl ⟨old, by simp [others, Ne.symm other]⟩
    · exact .inr ⟨new, by simp [mem]⟩

end Box

end Enclosure
