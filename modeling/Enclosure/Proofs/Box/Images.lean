import Enclosure.Proofs.Box.Exactness

/-!
# The image of a box

Every entry of the image of a point is the value of some form: of the one that is assigned to the
dimension, or of the dimension itself.
-/

namespace Enclosure

open List LinearForm

/-! ### Where an entry comes from -/

def LinearForm.Reads (f : LinearForm) (d : Nat) : Prop := ∃ c, (d, c) ∈ f.nonzero

def LinearForm.ofDimension (d : Nat) : LinearForm := ⟨.rational 0, .sparse [(d, .rational 1)]⟩

def sourceForm (dims : List Nat) (forms : List LinearForm) (d : Nat) : LinearForm :=
  ((dims.zip forms).lookup d).getD (.ofDimension d)

section Sources

variable {f : LinearForm} {dims : List Nat} {forms : List LinearForm} {x y : List Rat} {d : Nat}
  {q : Rat}

theorem LinearForm.IsNumeric.takes_cases (numeric : f.IsNumeric) (few : f.nonzero.length ≤ 1) :
    (∃ t, (∀ d, ¬ f.Reads d) ∧ ∀ x v, f.Takes x v ↔ v = t) ∨
      ∃ d p t, p ≠ 0 ∧ (∀ e, f.Reads e ↔ e = d) ∧
        ∀ x v, f.Takes x v ↔ v = p * x.getD d 0 + t := by
  obtain ⟨t, constant, terms⟩ := numeric.isSharp
  cases nonzero : f.nonzero with
  | nil =>
    refine .inl ⟨t, ?_, fun x v => takes_of_nonzero_nil constant nonzero⟩
    simp [Reads, nonzero]
  | cons e rest =>
    obtain ⟨d, c⟩ := e
    obtain rfl : rest = [] := by simpa [nonzero] using few
    have mem : (d, c) ∈ f.nonzero := by simp [nonzero]
    obtain ⟨p, coefficient, -⟩ := terms (d, c) mem
    refine .inr ⟨d, p, t, coefficient.ne_zero (mem_nonzero.1 mem).2, fun e => ?_,
      fun x v => takes_of_nonzero_singleton constant coefficient nonzero⟩
    simp [Reads, nonzero]

theorem LinearForm.isNumeric_ofDimension (d : Nat) : (ofDimension d).IsNumeric :=
  ⟨rfl, forall_mem_singleton.2 rfl⟩

theorem LinearForm.takes_ofDimension : (ofDimension d).Takes x q ↔ q = x.getD d 0 := by
  change (∃ t, Coefficient.Has (.rational 0) t ∧ Terms.SumsTo x [(d, .rational 1)] (q - t)) ↔ _
  simp [Terms.sumsTo_cons, sub_eq_zero]

theorem sourceForm_cases (same : dims.length = forms.length) (d : Nat) :
    d ∉ dims ∧ sourceForm dims forms d = .ofDimension d ∨
      (d, sourceForm dims forms d) ∈ dims.zip forms := by
  unfold sourceForm
  cases found : (dims.zip forms).lookup d with
  | none =>
    refine .inl ⟨fun mem => ?_, rfl⟩
    rw [← map_fst_zip same.le] at mem
    obtain ⟨p, inZip, rfl⟩ := mem_map.1 mem
    simpa using lookup_eq_none_iff.1 found p inZip
  | some f =>
    obtain ⟨_, _, split, -⟩ := lookup_eq_some_iff.1 found
    exact .inr (by simp [split])

theorem sourceForm_of_mem (nodup : dims.Nodup) (same : dims.length = forms.length)
    (mem : (d, f) ∈ dims.zip forms) : sourceForm dims forms d = f := by
  rcases sourceForm_cases same d with ⟨other, -⟩ | source
  · exact absurd (of_mem_zip mem).1 other
  · rw [← map_fst_zip same.le] at nodup
    exact (Prod.mk.inj (inj_on_of_nodup_map nodup source mem rfl)).2

theorem assigns_iff_sourceForm (nodup : dims.Nodup) (same : dims.length = forms.length)
    (inside : ∀ d ∈ dims, d < x.length) (length : y.length = x.length) :
    Assigns dims forms x y ↔ ∀ d < x.length, (sourceForm dims forms d).Takes x (y.getD d 0) := by
  rw [assigns_iff nodup same inside length]
  constructor
  · rintro ⟨others, takes⟩ d _
    rcases sourceForm_cases same d with ⟨other, source⟩ | mem
    · rw [source, takes_ofDimension, others d other]
    · exact takes _ mem
  · intro takes
    refine ⟨fun d other => ?_, fun p mem => ?_⟩
    · by_cases low : d < x.length
      · rcases sourceForm_cases same d with ⟨-, source⟩ | mem
        · exact takes_ofDimension.1 (source ▸ takes d low)
        · exact absurd (of_mem_zip mem).1 other
      · rw [getD_eq_default _ _ (by omega), getD_eq_default _ _ (by omega)]
    · exact sourceForm_of_mem nodup same mem ▸ takes p.1 (inside p.1 (of_mem_zip mem).1)

end Sources

namespace Box

variable {k : Kind} {s : Space} {bs : List Interval} {v w : Box} {x y base : List Rat} {d : Nat}
  {q : Rat} {i : Interval} {f : LinearForm} {dims : List Nat} {forms : List LinearForm}
  {request : Request}

/-! ### Points of a product -/

theorem hasPoint_of_entries (real : v.space.ints = 0) (has : v.HasPoint base)
    (length : x.length = v.space.size)
    (entries : ∀ d < v.space.size, ∃ z, v.HasPoint z ∧ z.getD d 0 = x.getD d 0) : v.HasPoint x := by
  cases v with
  | empty s => exact has.elim
  | ranges s bs =>
    refine ⟨Space.isPoint_of_real real length, fun d i found => ?_⟩
    by_cases low : d < s.size
    · obtain ⟨z, inside, same⟩ := entries d low
      exact same ▸ inside.2 d i found
    · -- beyond the space every vector reads as zero
      have zero {z : List Rat} (long : z.length = s.size) : z.getD d 0 = 0 :=
        getD_eq_default _ _ (by omega)
      have inside := has.2 d i found
      rwa [zero has.1.length, ← zero length] at inside

theorem has_iff_entry (real : s.ints = 0) (has : (ranges s bs).HasPoint base)
    (found : bs[d]? = some i) (low : d < s.size) :
    i.Has q ↔ ∃ x, (ranges s bs).HasPoint x ∧ q = x.getD d 0 := by
  constructor
  · intro member
    have inside : d < base.length := has.1.length ▸ low
    refine ⟨base.set d q, ⟨Space.isPoint_of_real real (by simpa using has.1.length), ?_⟩,
      (getD_set_self inside q).symm⟩
    intro e j place
    by_cases same : e = d
    · subst same
      rwa [getD_set_self inside, ← Option.some.inj (found.symm.trans place)]
    · rw [getD_set_of_ne same]
      exact has.2 e j place
  · rintro ⟨x, inside, rfl⟩
    exact inside.2 d i found

theorem has_eval_iff (hv : (ranges s bs).IsOf .rational) (real : s.ints = 0)
    (has : (ranges s bs).HasPoint base) (numeric : f.IsNumeric) (valid : f.Valid)
    (below : f.Below s.size) (few : f.nonzero.length ≤ 1) (run : f.eval bs .rational = .ok i) :
    i.Has q ↔ ∃ x, (ranges s bs).HasPoint x ∧ f.Takes x q := by
  obtain ⟨t, constant, terms⟩ := numeric.isSharp
  cases nonzero : f.nonzero with
  | nil =>
    rw [eval_of_nonzero_nil Kind.isOutward_rational nonzero, Except.ok.injEq] at run
    simp only [← run, constant.interval.has_iff, takes_of_nonzero_nil constant nonzero]
    exact ⟨fun same => ⟨base, has, same⟩, fun ⟨_, _, same⟩ => same⟩
  | cons e rest =>
    obtain ⟨d, c⟩ := e
    obtain rfl : rest = [] := by simpa [nonzero] using few
    have mem : (d, c) ∈ f.nonzero := by simp [nonzero]
    obtain ⟨p, coefficient, -⟩ := terms (d, c) mem
    have apart : p ≠ 0 := coefficient.ne_zero (mem_nonzero.1 mem).2
    have low : d < s.size := below (d, c) mem
    have inside : d < bs.length := hv.formed.1.symm ▸ low
    have place : bs[d]? = some bs[d] := getElem?_eq_getElem inside
    have rangeOf := hv.kind _ (getElem_mem inside)
    have full : bs[d].isEmpty = false := (has.2 d _ place).not_isEmpty
    have factor := Interval.isOf_rational_iff.1
      ((valid.coefficients (d, c) (mem_nonzero.1 mem).1).isOf_toIntervalOf (by simp))
    have summand := Interval.isOf_rational_iff.1 (valid.constant.isOf_toIntervalOf (by simp))
    have product (q : Rat) : ((c.toIntervalOf .rational).mul bs[d]).Has q ↔ bs[d].Has (p⁻¹ * q) :=
      Interval.has_mul_isAt factor full coefficient.interval apart
    have nonempty : ((c.toIntervalOf .rational).mul bs[d]).isEmpty = false :=
      ((product (p * base.getD d 0)).2
        (by rw [inv_mul_cancel_left₀ apart]
            exact has.2 d _ place)).not_isEmpty
    rw [eval, Coefficient.checkedIntervalOf_eq Kind.isOutward_rational, nonzero] at run
    change (boundAt bs .rational d >>= _) >>= _ = _ at run
    rw [boundAt_eq Kind.isOutward_rational inside, rangeOf.convert_eq] at run
    rw [← Except.ok.inj run, Interval.has_add_isAt summand nonempty constant.interval, product,
      has_iff_entry real has place low]
    refine exists_congr fun x => and_congr_right fun _ => ?_
    rw [takes_of_nonzero_singleton constant coefficient nonzero,
      inv_mul_eq_iff_eq_mul₀ apart, sub_eq_iff_eq_add]

/-! ### Assignment -/

theorem fit_of_real (real : s.ints = 0) (kind : i.IsOf k) : fit k (s.isInt d) i = i := by
  have notInt : s.isInt d = false := by simp [Space.isInt, real]
  rw [fit, kind.convert_eq, notInt]
  rfl

theorem exactly_assignEach {α : Type} {operation : DomainOperation} {simple : α → Bool}
    {value : α → Except Failure Interval} (pairs : List (Nat × α))
    (nodup : (pairs.map Prod.fst).Nodup) :
    Op.Exactly (assignEach operation k s simple value pairs bs) fun bs' =>
      bs'.length = bs.length ∧ (∀ d, d ∉ pairs.map Prod.fst → bs'[d]? = bs[d]?) ∧
        ∀ p ∈ pairs, simple p.2 = true ∧
          ∃ i, value p.2 = .ok i ∧ bs'[p.1]? = some (fit k (s.isInt p.1) i) := by
  induction pairs generalizing bs with
  | nil => exact Op.exactly_pure ⟨rfl, fun _ _ => rfl, by simp⟩
  | cons p pairs ih =>
    obtain ⟨d, e⟩ := p
    obtain ⟨new, nodup⟩ := nodup_cons.1 nodup
    rw [assignEach]
    split
    · exact Op.exactly_fail _
    rename_i inside
    refine Op.exactly_markInexactIf ?_
    cases run : value e with
    | error f => exact Op.exactly_fail f
    | ok i =>
      refine .mono (ih nodup) fun bs' later plain => ?_
      obtain ⟨length, others, each⟩ := later
      refine ⟨by simpa using length, fun c other => ?_, forall_mem_cons.2 ⟨⟨?_, i, run, ?_⟩, each⟩⟩
      · rw [map_cons, mem_cons, not_or] at other
        rw [others c other.2, getElem?_set_ne (.symm other.1)]
      · simpa using plain
      · rw [others d new, getElem?_set_self (not_le.1 inside)]

theorem exactly_assignForms (hv : v.IsOf .rational) (real : v.space.ints = 0)
    (has : v.HasPoint base) (same : dims.length = forms.length) (nodup : dims.Nodup)
    (valid : ∀ f ∈ forms, f.Valid ∧ f.Below v.space.size) (numeric : ∀ f ∈ forms, f.IsNumeric) :
    Op.Exactly (v.assignForms .rational dims forms) fun w =>
      (∀ f ∈ forms, f.nonzero.length ≤ 1) ∧ ∀ y, w.HasPoint y ↔ v.space.IsPoint y ∧
        ∀ d < v.space.size, ∃ x, v.HasPoint x ∧ (sourceForm dims forms d).Takes x (y.getD d 0) := by
  cases v with
  | empty s => exact has.elim
  | ranges s bs =>
    have real : s.ints = 0 := real
    have first : (dims.zip forms).map Prod.fst = dims := map_fst_zip same.le
    have second : (dims.zip forms).map Prod.snd = forms := map_snd_zip same.ge
    rw [assignForms, assign, if_neg (not_not.2 same)]
    refine (exactly_assignEach (dims.zip forms) (first.symm ▸ nodup)).bind fun bs' => ?_
    refine Op.exactly_ofExcept fun w made assigned => ?_
    obtain ⟨length, others, each⟩ := assigned
    rw [first] at others
    obtain ⟨_, made', -, -, points⟩ := make_spec (length.trans hv.formed.1)
    obtain rfl := Except.ok.inj (made'.symm.trans made)
    have few : ∀ f ∈ forms, f.nonzero.length ≤ 1 := by
      rw [← second, forall_mem_map]
      intro p mem
      have simple := (each p mem).1
      rw [isSimple, Bool.and_eq_true, decide_eq_true_eq] at simple
      exact simple.1
    refine ⟨few, fun y => (points y).trans (and_congr_right fun point => ?_)⟩
    have range (d : Nat) (low : d < s.size) : ∃ i, bs'[d]? = some i ∧ ∀ q, i.Has q ↔
        ∃ x, (ranges s bs).HasPoint x ∧ (sourceForm dims forms d).Takes x q := by
      rcases sourceForm_cases same d with ⟨other, source⟩ | mem
      · have inside : d < bs.length := hv.formed.1.symm ▸ low
        refine ⟨_, (others d other).trans (getElem?_eq_getElem inside), fun q => ?_⟩
        rw [source]
        simpa only [takes_ofDimension] using has_iff_entry real has (getElem?_eq_getElem inside) low
      · obtain ⟨-, i, run, found⟩ := each _ mem
        have inForms := (of_mem_zip mem).2
        obtain ⟨form, below⟩ := valid _ inForms
        obtain ⟨_, run', kind, -⟩ := eval_spec Kind.isOutward_rational form
          (hv.formed.1.symm ▸ below) fun i mem => (hv.kind i mem).toValid
        obtain rfl := Except.ok.inj (run'.symm.trans run)
        rw [fit_of_real real kind] at found
        exact ⟨_, found, fun q => has_eval_iff hv real has (numeric _ inForms) form below
          (few _ inForms) run⟩
    constructor
    · intro inBox d low
      obtain ⟨i, found, members⟩ := range d low
      exact (members _).1 (inBox d i found)
    · intro values d j found
      have low : d < s.size := hv.formed.1 ▸ length ▸ lt_of_getElem? found
      obtain ⟨i, found', members⟩ := range d low
      rw [← Option.some.inj (found'.symm.trans found)]
      exact (members _).2 (values d low)

/-! ### When the image is a box -/

def Fixes (v : Box) (e : Nat) : Prop :=
  ∀ x y, v.HasPoint x → v.HasPoint y → x.getD e 0 = y.getD e 0

/-- After an assignment no two entries depend on one dimension, unless all points agree there. -/
def Separates (v : Box) (dims : List Nat) (forms : List LinearForm) : Prop :=
  ∀ d < v.space.size, ∀ d' < v.space.size, ∀ e, (sourceForm dims forms d).Reads e →
    (sourceForm dims forms d').Reads e → d = d' ∨ v.Fixes e

section Image

variable (real : v.space.ints = 0) (same : dims.length = forms.length) (nodup : dims.Nodup)
  (inside : ∀ d ∈ dims, d < v.space.size)
include real same nodup inside

theorem image_iff : (∃ x, v.HasPoint x ∧ Assigns dims forms x y) ↔ v.space.IsPoint y ∧
    ∃ x, v.HasPoint x ∧ ∀ d < v.space.size, (sourceForm dims forms d).Takes x (y.getD d 0) := by
  constructor
  · rintro ⟨x, has, image⟩
    have long : x.length = v.space.size := has.isPoint.length
    have length : y.length = x.length := by
      obtain ⟨vs, -, rfl⟩ := image
      exact length_assignAll dims vs x
    rw [assigns_iff_sourceForm nodup same (long ▸ inside) length, long] at image
    exact ⟨Space.isPoint_of_real real (length.trans long), x, has, image⟩
  · rintro ⟨point, x, has, takes⟩
    have long : x.length = v.space.size := has.isPoint.length
    refine ⟨x, has, ?_⟩
    rwa [assigns_iff_sourceForm nodup same (long ▸ inside) (point.length.trans long.symm), long]

variable (numeric : ∀ f ∈ forms, f.IsNumeric) (few : ∀ f ∈ forms, f.nonzero.length ≤ 1)
include numeric few

omit real nodup inside in
theorem takes_sourceForm_cases (d : Nat) :
    (∃ t, (∀ e, ¬ (sourceForm dims forms d).Reads e) ∧
        ∀ x v, (sourceForm dims forms d).Takes x v ↔ v = t) ∨
      ∃ e p t, p ≠ 0 ∧ (∀ e', (sourceForm dims forms d).Reads e' ↔ e' = e) ∧
        ∀ x v, (sourceForm dims forms d).Takes x v ↔ v = p * x.getD e 0 + t := by
  rcases sourceForm_cases same d with ⟨-, source⟩ | mem
  · rw [source]
    exact (isNumeric_ofDimension d).takes_cases (le_refl 1)
  · exact (numeric _ (of_mem_zip mem).2).takes_cases (few _ (of_mem_zip mem).2)

theorem exists_preimage (has : v.HasPoint base)
    (below : ∀ f ∈ forms, f.Below v.space.size) (separates : v.Separates dims forms)
    (point : v.space.IsPoint y)
    (values : ∀ d < v.space.size,
      ∃ x, v.HasPoint x ∧ (sourceForm dims forms d).Takes x (y.getD d 0)) :
    ∃ x, v.HasPoint x ∧ Assigns dims forms x y := by
  choose! at' inside' takes using values
  -- each entry comes from the point of the only value that depends on it
  have entry (e : Nat) : ∃ q, (∃ z, v.HasPoint z ∧ z.getD e 0 = q) ∧
      ∀ d < v.space.size, (sourceForm dims forms d).Reads e → (at' d).getD e 0 = q := by
    by_cases read : ∃ d < v.space.size, (sourceForm dims forms d).Reads e
    · obtain ⟨d, low, reads⟩ := read
      refine ⟨_, ⟨at' d, inside' d low, rfl⟩, fun d' low' reads' => ?_⟩
      rcases separates d' low' d low e reads' reads with rfl | fixed
      · rfl
      · exact fixed _ _ (inside' d' low') (inside' d low)
    · exact ⟨_, ⟨base, has, rfl⟩, fun d low reads => absurd ⟨d, low, reads⟩ read⟩
  choose q member agrees using entry
  have value {e : Nat} (low : e < v.space.size) : ((range v.space.size).map q).getD e 0 = q e := by
    rw [getD_eq_getElem _ _ (by simpa using low)]
    simp
  rw [image_iff real same nodup inside]
  refine ⟨point, (range v.space.size).map q, hasPoint_of_entries real has (by simp) ?_, ?_⟩
  · intro e low
    rw [value low]
    exact member e
  · intro d low
    have taken := takes d low
    rcases takes_sourceForm_cases same numeric few d with ⟨t, -, all⟩ | ⟨e, p, t, -, reads, all⟩
    · rwa [all] at taken ⊢
    · have read : (sourceForm dims forms d).Reads e := (reads e).2 rfl
      have low' : e < v.space.size := by
        obtain ⟨c, mem⟩ := read
        rcases sourceForm_cases same d with ⟨-, source⟩ | assigned
        · rw [source] at mem
          obtain ⟨rfl, -⟩ := Prod.mk.inj (mem_singleton.1 mem)
          exact low
        · exact below _ (of_mem_zip assigned).2 _ mem
      rw [all] at taken ⊢
      rwa [value low', ← agrees e d low read]

theorem separates_of_preimages (preimages : ∀ y, v.space.IsPoint y → (∀ d < v.space.size,
      ∃ x, v.HasPoint x ∧ (sourceForm dims forms d).Takes x (y.getD d 0)) →
      ∃ x, v.HasPoint x ∧ Assigns dims forms x y) : v.Separates dims forms := by
  intro d low d' low' e reads reads'
  rw [or_iff_not_imp_left]
  intro other x x' has has'
  -- one entry is taken from the image of the second point, and all others from that of the first
  let mixed (c : Nat) : List Rat := if c = d' then x' else x
  have inBox (c : Nat) : v.HasPoint (mixed c) := by
    unfold mixed
    split
    · exact has'
    · exact has
  have total (c : Nat) : ∃ q, (sourceForm dims forms c).Takes (mixed c) q := by
    rcases takes_sourceForm_cases same numeric few c with ⟨t, -, all⟩ | ⟨e, p, t, -, -, all⟩ <;>
      exact ⟨_, (all _ _).2 rfl⟩
  choose value takes using total
  have entry {c : Nat} (low : c < v.space.size) :
      ((range v.space.size).map value).getD c 0 = value c := by
    rw [getD_eq_getElem _ _ (by simpa using low)]
    simp
  have found := preimages ((range v.space.size).map value)
    (Space.isPoint_of_real real (by simp))
    fun c low => ⟨mixed c, inBox c, (entry low).symm ▸ takes c⟩
  obtain ⟨-, z, -, image⟩ := (image_iff real same nodup inside).1 found
  have recovers {c : Nat} (low : c < v.space.size) (reads : (sourceForm dims forms c).Reads e) :
      z.getD e 0 = (mixed c).getD e 0 := by
    rcases takes_sourceForm_cases same numeric few c with
      ⟨t, none, -⟩ | ⟨e', p, t, apart, only, all⟩
    · exact absurd reads (none e)
    · obtain rfl := (only e).1 reads
      have left := (all _ _).1 (entry low ▸ image c low)
      have right := (all _ _).1 (takes c)
      exact mul_left_cancel₀ apart (add_right_cancel (left.symm.trans right))
  have first := recovers low reads
  have second := recovers low' reads'
  rw [show mixed d = x from if_neg other] at first
  rw [show mixed d' = x' from if_pos rfl] at second
  exact first.symm.trans second

end Image

theorem reports_assignForms (hv : v.IsOf .rational) (real : v.space.ints = 0)
    (proper : v.isEmpty = true ∨ ∃ x, v.HasPoint x) (same : dims.length = forms.length)
    (nodup : dims.Nodup) (inside : ∀ d ∈ dims, d < v.space.size)
    (valid : ∀ f ∈ forms, f.Valid ∧ f.Below v.space.size) (numeric : ∀ f ∈ forms, f.IsNumeric) :
    Op.Reports request (v.assignForms .rational dims forms) (fun w => w.space = v.space) fun w =>
      (∀ y, w.HasPoint y ↔ ∃ x, v.HasPoint x ∧ Assigns dims forms x y) ↔
        v.Separates dims forms := by
  have sound : Op.Ensures request False (v.assignForms .rational dims forms) _ :=
    ensures_assignForms Kind.isOutward_rational (fits_rational_iff.2 hv) same nodup inside
      fun f mem => ⟨(valid f mem).1, (valid f mem).1.constant.fitsIn_rational, (valid f mem).2⟩
  refine Op.Returns.reports ((sound.returns not_false).mono fun w h => h.2.1) ?_
  rcases proper with empty | ⟨_, has⟩
  · cases v with
    | ranges s bs => cases empty
    | empty s =>
      rw [assignForms, assign, if_neg (not_not.2 same)]
      refine Op.exactly_pure (iff_of_true (fun y => ?_) fun d _ d' _ e _ _ => .inr ?_)
      · exact iff_of_false id fun ⟨x, inside, _⟩ => inside
      · exact fun x y inside => inside.elim
  · refine (exactly_assignForms hv real has same nodup valid numeric).mono fun w assigned => ?_
    obtain ⟨few, points⟩ := assigned
    simp only [points]
    constructor
    · intro images
      exact separates_of_preimages real same nodup inside numeric few
        fun y point values => (images y).1 ⟨point, values⟩
    · intro separates y
      refine ⟨fun h => exists_preimage real same nodup inside numeric few has
        (fun f mem => (valid f mem).2) separates h.1 h.2, fun image => ?_⟩
      obtain ⟨point, x, has, takes⟩ := (image_iff real same nodup inside).1 image
      exact ⟨point, fun d low => ⟨x, has, takes d low⟩⟩

end Box

end Enclosure
