import Enclosure.Proofs.Box.Propagation
import Enclosure.Proofs.TermOperations

/-!
# No operation on boxes loses a point

A box assigns expressions by evaluating each of them over the ranges that it has, so the image of a
point is within the new ranges.
-/

namespace Enclosure

open List Op Coefficient SpaceChange

theorem InBox.set {bs : List Interval} {x : List Rat} {d : Nat} {i : Interval} {q : Rat}
    (h : InBox bs x) (inside : d < x.length) (has : i.Has q) : InBox (bs.set d i) (x.set d q) := by
  intro e j found
  rw [getElem?_set] at found
  split at found
  · rename_i same
    subst same
    split at found
    · rwa [getD_set_self inside, ← Option.some.inj found]
    · cases found
  · rename_i other
    rw [getD_set_of_ne (.symm other)]
    exact h e j found

namespace Box

variable {k : Kind} {request : Request} {risk : Prop} {α : Type} {operation : DomainOperation}
  {simple : α → Bool} {s : Space} {v : Box} {dims : List Nat}

theorem ensures_assignEach {R : α → Rat → Prop} {value : α → Except Failure Interval}
    (outward : k.IsOutward) (pairs : List (Nat × α)) {bs : List Interval}
    (nodup : (pairs.map Prod.fst).Nodup) (inside : ∀ p ∈ pairs, p.1 < bs.length)
    (fits : ∀ i ∈ bs, i.Fits k)
    (values : ∀ p ∈ pairs, ∃ i, value p.2 = .ok i ∧ i.Fits k ∧ ∀ q, R p.2 q → i.Has q) :
    Ensures request risk (assignEach operation k s simple value pairs bs) fun bs' =>
      bs'.length = bs.length ∧ (∀ i ∈ bs', i.Fits k) ∧
        ∀ vs x, x.length = bs.length → Forall₂ (fun p q => R p.2 q) pairs vs → InBox bs x →
          (∀ d, s.isInt d = true → ((assignAll (pairs.map Prod.fst) vs x).getD d 0).den = 1) →
          InBox bs' (assignAll (pairs.map Prod.fst) vs x) := by
  induction pairs generalizing bs with
  | nil => exact ensures_pure ⟨rfl, fits, fun vs x _ _ inBox _ => inBox⟩
  | cons p pairs ih =>
    obtain ⟨d, e⟩ := p
    obtain ⟨new, nodup⟩ := nodup_cons.1 nodup
    obtain ⟨within, insideRest⟩ := forall_mem_cons.1 inside
    obtain ⟨⟨i, run, range, has⟩, values⟩ := forall_mem_cons.1 values
    have setFits : ∀ j ∈ bs.set d (fit k (s.isInt d) i), j.Fits k := by
      intro j mem
      rcases mem_or_eq_of_mem_set mem with old | rfl
      · exact fits j old
      · exact fits_fit range
    rw [assignEach, if_neg (not_le.2 within)]
    apply Ensures.markInexactIf
    apply Ensures.ofExceptBind run
    apply (ih nodup (by simpa using insideRest) setFits values).mono
    intro bs' ⟨length, fits', holds⟩
    rw [length_set] at length holds
    refine ⟨length, fits', fun vs x same takes inBox integral => ?_⟩
    cases takes with
    | @cons _ q _ vs first takes =>
      have below : d < x.length := same.symm ▸ within
      -- later assignments do not change the dimension
      have kept : (assignAll (pairs.map Prod.fst) vs (x.set d q)).getD d 0 = q := by
        rw [getD_assignAll_of_not_mem new, getD_set_self below]
      apply holds vs (x.set d q) (by simpa using same) takes _ integral
      apply inBox.set below
      apply has_fit outward range (has q first)
      intro integer
      rw [← kept]
      exact integral d integer

section

variable (outward : k.IsOutward) (hv : v.Fits k)
include outward hv

theorem ensures_assign {Takes : α → List Rat → Rat → Prop}
    {value : List Interval → α → Except Failure Interval} {es : List α}
    (same : dims.length = es.length) (nodup : dims.Nodup) (inside : ∀ d ∈ dims, d < v.space.size)
    (values : ∀ e ∈ es, ∀ bs : List Interval, bs.length = v.space.size →
      (∀ i ∈ bs, i.Fits k) → ∃ i, value bs e = .ok i ∧ i.Fits k ∧
        ∀ x q, InBox bs x → Takes e x q → i.Has q) :
    Ensures request risk (assign operation k simple value v dims es) fun w =>
      w.Fits k ∧ w.space = v.space ∧ ∀ x y, v.HasPoint x →
        (∃ vs, Forall₂ (fun e q => Takes e x q) es vs ∧ y = assignAll dims vs x) →
        v.space.IsPoint y → w.HasPoint y := by
  unfold assign
  rw [if_neg (not_not.2 same)]
  cases v with
  | empty s => exact ensures_pure ⟨hv, rfl, fun x y inside => inside.elim⟩
  | ranges s bs =>
    obtain ⟨size, -⟩ := hv.formed
    have first : (dims.zip es).map Prod.fst = dims := map_fst_zip same.le
    have second : (dims.zip es).map Prod.snd = es := map_snd_zip same.ge
    have each : Ensures request risk
        (assignEach operation k s simple (value bs) (dims.zip es) bs) _ :=
      ensures_assignEach (R := fun e q => ∃ x, InBox bs x ∧ Takes e x q) outward (dims.zip es)
        (first.symm ▸ nodup) (fun p mem => size.symm ▸ inside p.1 (of_mem_zip mem).1)
        hv.bounds fun p mem => by
          obtain ⟨i, run, fits, has⟩ := values p.2 (of_mem_zip mem).2 bs size hv.bounds
          exact ⟨i, run, fits, fun q ⟨x, inBox, takes⟩ => has x q inBox takes⟩
    apply each.bind
    intro bs' ⟨length, fits, holds⟩
    apply (ensures_make (length.trans size) fits).mono
    intro w ⟨hw, space, points⟩
    refine ⟨hw, space, fun x y old assigned point => (points _).2 ⟨point, ?_⟩⟩
    obtain ⟨vs, takes, rfl⟩ := assigned
    rw [first] at holds
    apply holds vs x (old.1.length.trans size.symm) _ old.2 point.integral
    rw [← second, forall₂_map_left_iff] at takes
    exact takes.imp fun p q h => ⟨x, old.2, h⟩

theorem ensures_assignForms {forms : List LinearForm} (same : dims.length = forms.length)
    (nodup : dims.Nodup) (inside : ∀ d ∈ dims, d < v.space.size)
    (valid : ∀ f ∈ forms, f.Valid ∧ f.constant.FitsIn k ∧ f.Below v.space.size) :
    Ensures request risk (v.assignForms k dims forms) fun w =>
      w.Fits k ∧ w.space = v.space ∧ ∀ x y, v.HasPoint x → Assigns dims forms x y →
        v.space.IsPoint y → w.HasPoint y := by
  refine ensures_assign outward hv same nodup inside fun f mem bs size ranges => ?_
  obtain ⟨form, constant, below⟩ := valid f mem
  obtain ⟨i, run, -, fits, spans⟩ := LinearForm.eval_spec outward form (size.symm ▸ below)
    fun i mem => (ranges i mem).isOf.toValid
  exact ⟨i, run, fits constant, fun x q inBox takes => spans x inBox _ takes.reaches⟩

theorem ensures_assignTerms {ts : List Term} (same : dims.length = ts.length) (nodup : dims.Nodup)
    (inside : ∀ d ∈ dims, d < v.space.size)
    (valid : ∀ t ∈ ts, t.AllConstants (FitsIn k) ∧ t.support ≤ v.space.size) :
    Ensures request risk (v.assignTerms k dims ts) fun w =>
      w.Fits k ∧ w.space = v.space ∧ ∀ x y, v.HasPoint x → AssignsTerms dims ts x y →
        v.space.IsPoint y → w.HasPoint y := by
  refine ensures_assign outward hv same nodup inside fun t mem bs size ranges => ?_
  obtain ⟨constants, support⟩ := valid t mem
  obtain ⟨i, run, fits, encloses⟩ := Term.eval_spec outward t constants
    (fun d occurs => size ▸ (Term.lt_support occurs).trans_le support)
    fun i mem => (ranges i mem).self
  exact ⟨i, run, fits,
    fun x q inBox takes => Interval.encloses_ratCast.1 (encloses x inBox q takes)⟩

end

/-! ### The domain of boxes -/

theorem fits_top (k : Kind) (s : Space) : ((core k).top s).Fits k where
  formed := by
    refine ⟨length_replicate, fun i mem => ?_⟩
    rw [eq_of_mem_replicate mem]
    rfl
  bounds i mem := by
    rw [eq_of_mem_replicate mem]
    exact Interval.fits_top k

theorem ensures_ofIntervals (outward : k.IsOutward) {is : List Interval}
    (length : is.length = s.size) (fits : ∀ i ∈ is, i.Fits i.kind) :
    Ensures request risk (ofIntervals k s is) fun w =>
      w.Fits k ∧ w.space = s ∧ ∀ x, s.IsPoint x → InBox is x → w.HasPoint x := by
  unfold ofIntervals
  rw [if_neg (not_not.2 length)]
  split
  · rename_i none
    refine ensures_pure ⟨fits_empty s, rfl, fun x _ inBox => ?_⟩
    obtain ⟨i, mem, empty⟩ := any_eq_true.1 none
    obtain ⟨d, found⟩ := getElem?_of_mem mem
    exact absurd empty (by simp [(inBox d i found).not_isEmpty])
  · have fitted : ∀ j ∈ is.zipIdx.map fun p => fit k (s.isInt p.2) p.1, j.Fits k := by
      intro j mem
      obtain ⟨p, place, rfl⟩ := mem_map.1 mem
      exact fits_fit (fits p.1 (fst_mem_of_mem_zipIdx place))
    apply (ensures_make (by simpa using length) fitted).mono
    intro w made
    obtain ⟨hw, space, points⟩ := made
    refine ⟨hw, space, fun x point inBox => (points x).2 ⟨point, fun d j found => ?_⟩⟩
    simp only [getElem?_map, getElem?_zipIdx, Option.map_map, Option.map_eq_some_iff] at found
    obtain ⟨i, place, rfl⟩ := found
    rw [Nat.zero_add]
    exact has_fit outward (fits i (mem_of_getElem? place)) (inBox d i place) (point.integral d)

theorem soundOn_core (outward : k.IsOutward) (request : Request) :
    (core k).SoundOn (Fits k) HasPoint request where
  isPoint h := h.isPoint
  isBottom v _ := by
    apply ensures_pure
    intro empty x inside
    cases v with
    | empty s => exact inside
    | ranges s bs => cases empty
  isLeq _ _ ha hb same := ensures_isLeq ha.formed hb.formed same
  meet _ _ ha hb same := ensures_meet ha hb same
  meetLinear _ _ hv valid := ensures_propagate outward hv valid
  join _ _ ha hb same := ensures_join ha hb same
  widening _ _ ha hb same := ensures_widening ha hb same
  addDimensions v c project hv fits _ := by
    cases v with
    | empty s => exact ensures_pure ⟨fits_empty _, rfl, fun y _ inside => inside.elim⟩
    | ranges s bs =>
      obtain ⟨size, -⟩ := hv.formed
      obtain ⟨length, new⟩ := insertInto_spec hv fits project
      apply (ensures_make length fun i mem => (new i mem).1).mono
      rintro w ⟨hw, space, points⟩
      refine ⟨hw, space, fun y point inside zeros => (points y).2 ⟨point, ?_⟩⟩
      intro j i found
      have reach : ∀ d ∈ c.dims, d ≤ bs.length := size.symm ▸ fits.reach
      rcases getElem?_insertInto fits.sorted reach found with ⟨d, old, rfl⟩ | ⟨rfl, new⟩
      · have within : d < s.size := size ▸ lt_of_getElem? old
        have value : (readAt (c.shifts s.size) y).getD d 0 = y.getD (c.shift d) 0 :=
          getD_readAt (by simp [shifts, within]) y
        exact value ▸ inside.2 d i old
      · exact has_filler fun yes => zeros yes j new
  removeDimensions v c hv fits := by
    have fits : c.Removes v.space := fits
    change Ensures request True (v.removeDimensions c) _
    unfold removeDimensions
    rw [if_neg (by simpa using fits.inside)]
    apply Ensures.ofExceptBind fits.shrink_eq
    cases v with
    | empty s => exact ensures_pure ⟨fits_empty _, rfl, fun x inside => inside.elim⟩
    | ranges s bs =>
      obtain ⟨size, -⟩ := hv.formed
      obtain ⟨length, left, -⟩ := removeFrom_spec hv fits
      refine (ensures_make length fun i mem => (left i mem).1).mono ?_
      rintro w ⟨hw, space, points⟩
      refine ⟨hw, space, fun x old point => (points _).2 ⟨space ▸ point, ?_⟩⟩
      rw [removeFrom_eq bs (.top k), size]
      exact old.2.readAt (fun d mem => size.symm ▸ lt_of_mem_kept mem) _
  permuteDimensions v p hv valid := by
    cases v with
    | empty s => exact ensures_pure ⟨hv, rfl, fun y _ inside => inside.elim⟩
    | ranges s bs =>
      obtain ⟨_, permuted, length, old, moved⟩ := permute_spec hv valid
      change Ensures request True (Op.ofExcept (do make s (← p.permute bs))) _
      rw [permuted]
      refine (ensures_make length fun i mem => hv.bounds i (old i mem)).mono ?_
      rintro w ⟨hw, space, points⟩
      refine ⟨hw, space, fun y point inside => (points y).2 ⟨point, ?_⟩⟩
      exact (moved y point.length).2 inside.2
  forget v dims project hv below := by
    cases v with
    | empty s => exact ensures_pure ⟨hv, rfl, fun x y inside => inside.elim⟩
    | ranges s bs =>
      obtain ⟨size, full⟩ := hv.formed
      have length := (length_foldl_set dims bs (filler k project)).trans size
      change Ensures request True ((ranges s bs).forget k dims project) _
      have below : ∀ d ∈ dims, d < s.size := below
      unfold forget
      dsimp only
      rw [if_neg (by simpa [size] using below)]
      refine ensures_pure ⟨⟨⟨length, fun i mem => ?_⟩, fun i mem => ?_⟩, rfl, ?_⟩
      · obtain ⟨j, found⟩ := getElem?_of_mem mem
        rcases getElem?_foldl_set found with ⟨old, -⟩ | ⟨rfl, -⟩
        · exact full i (mem_of_getElem? old)
        · exact isEmpty_filler project
      · obtain ⟨j, found⟩ := getElem?_of_mem mem
        rcases getElem?_foldl_set found with ⟨old, -⟩ | ⟨rfl, -⟩
        · exact hv.bounds i (mem_of_getElem? old)
        · exact fits_filler project
      · intro x y inside point agree zeros
        refine ⟨point, fun j i found => ?_⟩
        rcases getElem?_foldl_set found with ⟨old, kept⟩ | ⟨rfl, forgotten⟩
        · exact agree j kept ▸ inside.2 j i old
        · exact has_filler fun yes => zeros yes j forgotten

theorem length_bounds (formed : v.IsFormed) : (v.bounds k).length = v.space.size := by
  cases v with
  | empty s => exact length_replicate
  | ranges s bs => exact formed.1

theorem HasPoint.inBox {x : List Rat} (h : v.HasPoint x) : InBox (v.bounds k) x := by
  cases v with
  | empty s => exact h.elim
  | ranges s bs => exact h.2

theorem readsRanges (k : Kind) (request : Request) :
    (core k).ReadsRanges (Fits k) HasPoint request := by
  intro v hv
  apply ensures_pure
  exact ⟨length_bounds hv.formed, hv.bounds, fun x inside => inside.inBox⟩

theorem boundsForms (outward : k.IsOutward) (request : Request) :
    (domain k).BoundsForms (Fits k) HasPoint request := by
  intro v f hv valid below
  exact (soundOn_core outward request).boundByBox outward (readsRanges k request) hv valid below

theorem readsBoxes (request : Request) :
    (core .rational).ReadsBoxes (IsOf .rational) HasPoint request where
  kind := rfl
  toBox v hv := readsRanges .rational request v (fits_rational_iff.2 hv)

theorem soundOn (request : Request) :
    (domain .rational).SoundOn (IsOf .rational) HasPoint request := by
  have formed : IsOf .rational = Fits .rational := funext fun v => propext fits_rational_iff.symm
  rw [formed]
  refine ⟨soundOn_core Kind.isOutward_rational request,
    boundsForms Kind.isOutward_rational request, ?_⟩
  intro v dims forms hv same nodup inside valid
  apply ensures_assignForms Kind.isOutward_rational hv same nodup inside
  intro f mem
  obtain ⟨form, below⟩ := valid f mem
  exact ⟨form, form.constant.fitsIn_rational, below⟩

/-! ### All kinds that round outward -/

/-- No operation on boxes loses a point, whether their bounds are rationals or binary floats with at
least one bit, and however many rounds are asked for; constraints add none. -/
theorem outward_kinds_keep_points {k : Kind} (directed : k ≠ .double) (bits : k ≠ .binary 0)
    (request : Request) :
    domainOf k = .ok (domain k) ∧
    (∀ s, ((domain k).top s).Fits k ∧ ((domain k).bottom s).Fits k) ∧
    (∀ s is, is.length = s.size → (∀ i ∈ is, i.Fits i.kind) →
      Op.Returns request ((domain k).ofBox s is) fun w =>
        w.Fits k ∧ w.space = s ∧ ∀ x, s.IsPoint x → InBox is x → w.HasPoint x) ∧
    (∀ v cs, v.Fits k → (∀ c ∈ cs, c.form.Valid ∧ c.form.Below v.space.size) →
      Op.Returns request ((domain k).meetLinear v cs) fun w =>
        w.Fits k ∧ w.space = v.space ∧ (∀ x, v.HasPoint x → (∀ c ∈ cs, c.Holds x) →
          w.HasPoint x) ∧ ∀ x, w.HasPoint x → v.HasPoint x) ∧
    (∀ v cs, v.Fits k →
      (∀ c ∈ cs, c.term.AllConstants Coefficient.Fits ∧ c.term.support ≤ v.space.size) →
      Op.Ensures request True ((domain k).meetTerms v cs) fun w =>
        w.Fits k ∧ w.space = v.space ∧ (∀ x, v.HasPoint x → (∀ c ∈ cs, c.Holds x) →
          w.HasPoint x) ∧ ∀ x, w.HasPoint x → v.HasPoint x) ∧
    (∀ v dims forms, v.Fits k → dims.length = forms.length → dims.Nodup →
      (∀ d ∈ dims, d < v.space.size) →
      (∀ f ∈ forms, f.Valid ∧ f.constant.Fits ∧ f.Below v.space.size) →
      Op.Returns request ((domain k).assignForms v dims forms) fun w =>
        w.Fits k ∧ w.space = v.space ∧ ∀ x y, v.HasPoint x → Assigns dims forms x y →
          v.space.IsPoint y → w.HasPoint y) ∧
    (∀ v dims ts, v.Fits k → dims.length = ts.length → dims.Nodup →
      (∀ d ∈ dims, d < v.space.size) →
      (∀ t ∈ ts, t.AllConstants Coefficient.Fits ∧ t.support ≤ v.space.size) →
      Op.Returns request ((domain k).assignTerms v dims ts) fun w =>
        w.Fits k ∧ w.space = v.space ∧ ∀ x y, v.HasPoint x → AssignsTerms dims ts x y →
          v.space.IsPoint y → w.HasPoint y) ∧
    (∀ v dims forms, v.Fits k → dims.length = forms.length → (∀ d ∈ dims, d < v.space.size) →
      (∀ f ∈ forms, f.Valid ∧ f.Below v.space.size) →
      Op.Ensures request True ((domain k).substituteForms v dims forms) fun w =>
        w.Fits k ∧ w.space = v.space ∧ ∀ x y, v.space.IsPoint x → Assigns dims forms x y →
          v.HasPoint y → w.HasPoint x) ∧
    ∀ a b thresholds, a.Fits k → b.Fits k → a.space = b.space →
      (∀ c ∈ thresholds, c.form.Valid ∧ c.form.Below a.space.size) →
      (∀ c ∈ thresholds, c.form.constant.toInterval.isEmpty = false ∧
        ∀ e ∈ c.form.entries, e.2.toInterval.isEmpty = false) →
      Op.Ensures request True ((domain k).wideningThreshold a b thresholds) fun w =>
        w.Fits k ∧ w.space = a.space ∧ ∀ x, a.HasPoint x ∨ b.HasPoint x → w.HasPoint x := by
  have outward : k.IsOutward := Kind.isOutward_of_ne directed bits
  have sound := soundOn_core outward request
  have reads := readsRanges k request
  refine ⟨if_neg bits, fun s => ⟨fits_top k s, fits_empty s⟩, ?_, ?_, ?_, ?_, ?_, ?_, ?_⟩
  · intro s is length fits
    exact (ensures_ofIntervals outward length fits).returns not_false
  · intro v cs hv valid
    apply ((ensures_propagate outward hv valid).returns not_false).mono
    intro w ⟨hw, space, keeps, within⟩
    exact ⟨hw, space, fun x inside holds => keeps x inside fun c mem => (holds c mem).admits,
      within⟩
  · intro v cs hv valid
    apply sound.meetTerms (D := domain k) outward reads hv
    intro c mem
    obtain ⟨constants, support⟩ := valid c mem
    exact ⟨constants.mono fun c fits => fits.fitsIn k, support⟩
  · intro v dims forms hv same nodup inside valid
    apply (ensures_assignForms outward hv same nodup inside _).returns not_false
    intro f mem
    obtain ⟨form, constant, below⟩ := valid f mem
    exact ⟨form, constant.fitsIn k, below⟩
  · intro v dims ts hv same nodup inside valid
    apply (ensures_assignTerms outward hv same nodup inside _).returns not_false
    intro t mem
    obtain ⟨constants, support⟩ := valid t mem
    exact ⟨constants.mono fun c fits => fits.fitsIn k, support⟩
  · intro v dims forms hv same inside valid
    exact DomainCore.SoundOn.substituteForms (D := domain k) sound hv same inside valid
  · intro a b thresholds ha hb same valid inhabited
    exact DomainCore.SoundOn.wideningThreshold (D := domain k) sound (boundsForms outward request)
      ha hb same valid inhabited

/-- With three bits neither number of `9 x - 27 ≥ 0` is a value of the kind, and the nearest ones
are those of `8 x - 28 ≥ 0`, which leaves only integers from four on. -/
theorem wide_coefficients_keep_solution :
    let line : Box := (domain (.binary 3)).top ⟨1, 0⟩
    let above : LinearConstraint :=
      .plain .atLeast ⟨.rational (-27), .sparse [(0, .rational 9)]⟩
    line.Fits (.binary 3) ∧ (above.form.Valid ∧ above.form.Below line.space.size) ∧
    Op.Returns ⟨.meetLinear, .standard, []⟩ ((domain (.binary 3)).meetLinear line [above])
      fun w => w.HasPoint [3] := by
  intro line above
  obtain ⟨-, shaped, -, meet, -⟩ := outward_kinds_keep_points (k := .binary 3) (by decide)
    (by decide) ⟨.meetLinear, .standard, []⟩
  have entries : above.form.entries = [(0, .rational 9)] := rfl
  have valid : above.form.Valid ∧ above.form.Below line.space.size := by
    refine ⟨⟨by decide, ?_, trivial⟩, fun e mem => ?_⟩
    · rw [entries]
      exact List.forall_mem_singleton.2 trivial
    · obtain rfl : e = (0, .rational 9) :=
        List.mem_singleton.1 (entries ▸ (LinearForm.mem_nonzero.1 mem).1)
      decide
  refine ⟨(shaped _).1, valid, ?_⟩
  have point : line.HasPoint [3] := by
    refine ⟨⟨rfl, fun d integer => ?_⟩, fun d i found => ?_⟩
    · obtain rfl : d = 0 := by simpa [Space.isInt] using integer
      rfl
    · rw [List.eq_of_mem_replicate (List.mem_of_getElem? found)]
      exact ⟨ExtRat.negInf_le _, ExtRat.le_posInf _⟩
  have holds : above.Holds [3] := by
    refine ⟨0, ⟨-27, Coefficient.has_exact.2 rfl, ?_⟩, le_refl _⟩
    rw [entries, show (0 - -27 : Rat) = 9 * [3].getD 0 0 + 0 by norm_num]
    exact .cons (Coefficient.has_exact.2 rfl) .nil
  apply (meet line [above] (shaped _).1 (by simpa using valid)).mono
  intro w kept
  obtain ⟨-, -, keeps, -⟩ := kept
  exact keeps _ point (by simpa using holds)

end Box

end Enclosure
