import Enclosure.Proofs.Assignment
import Enclosure.Proofs.Running

/-!
# Soundness of domains

A value of a domain stands for a set of points of its space.
-/

namespace Enclosure

open Op SpaceChange LinearConstraint

variable {V : Type} {formed : V → Prop} {γ : V → List Rat → Prop} {request : Request}
  {forms : List LinearForm} {D : DomainCore V}

/-- No core operation loses a point, where the points of a value are given by `γ`. -/
structure DomainCore.Sound (D : DomainCore V) (γ : V → List Rat → Prop) (request : Request) :
    Prop where
  isPoint : ∀ {v x}, γ v x → (D.space v).IsPoint x
  isBottom : ∀ v, Ensures request True (D.isBottom v) fun answer =>
    answer = true → ∀ x, ¬ γ v x
  isLeq : ∀ a b, D.space a = D.space b → Ensures request True (D.isLeq a b) fun answer =>
    answer = true → ∀ x, γ a x → γ b x
  meet : ∀ a b, D.space a = D.space b → Ensures request True (D.meet a b) fun w =>
    D.space w = D.space a ∧ ∀ x, γ a x → γ b x → γ w x
  meetLinear : ∀ v cs, (∀ c ∈ cs, c.form.Valid ∧ c.form.Below (D.space v).size) →
    Ensures request True (D.meetLinear v cs) fun w =>
      D.space w = D.space v ∧ (∀ x, γ v x → (∀ c ∈ cs, c.Admits x) → γ w x) ∧
        ∀ x, γ w x → γ v x
  join : ∀ a b, D.space a = D.space b → Ensures request True (D.join a b) fun w =>
    D.space w = D.space a ∧ ∀ x, γ a x ∨ γ b x → γ w x
  widening : ∀ a b, D.space a = D.space b → Ensures request True (D.widening a b) fun w =>
    D.space w = D.space a ∧ ∀ x, γ a x ∨ γ b x → γ w x
  addDimensions : ∀ v c project, c.Inserts (D.space v) →
    (project = true → ∀ d ∈ c.added, d ≤ noDimension) →
    Ensures request True (D.addDimensions v c project) fun w =>
      D.space w = (D.space v).grow c ∧ ∀ y, ((D.space v).grow c).IsPoint y →
        γ v (readAt (c.shifts (D.space v).size) y) →
        (project = true → ∀ d ∈ c.added, y.getD d 0 = 0) → γ w y
  removeDimensions : ∀ v c, c.Removes (D.space v) →
    Ensures request True (D.removeDimensions v c) fun w =>
      D.space w = ⟨(D.space v).ints - c.ints, (D.space v).reals - c.reals⟩ ∧
        ∀ x, γ v x → (D.space w).IsPoint (readAt (c.kept (D.space v).size) x) →
          γ w (readAt (c.kept (D.space v).size) x)
  permuteDimensions : ∀ v p, p.Valid (D.space v).size →
    Ensures request True (D.permuteDimensions v p) fun w =>
      D.space w = D.space v ∧ ∀ y, (D.space v).IsPoint y →
        γ v (readAt ((List.range (D.space v).size).map p.image) y) → γ w y
  forget : ∀ v dims project, (∀ d ∈ dims, d < (D.space v).size) →
    Ensures request True (D.forget v dims project) fun w =>
      D.space w = D.space v ∧ ∀ x y, γ v x → (D.space v).IsPoint y →
        (∀ d, d ∉ dims → y.getD d 0 = x.getD d 0) →
        (project = true → ∀ d ∈ dims, y.getD d 0 = 0) → γ w y

/-- No operation loses a point. -/
structure Domain.Sound (D : Domain V) (γ : V → List Rat → Prop) (request : Request) : Prop
    extends D.toDomainCore.Sound γ request where
  boundForm : ∀ v f, f.Valid → f.Below (D.space v).size →
    Ensures request True (D.boundForm v f) fun i => ∀ x r, γ v x → f.Reaches x r → i.Spans r
  assignForms : ∀ v dims forms, dims.length = forms.length → dims.Nodup →
    (∀ d ∈ dims, d < (D.space v).size) →
    (∀ f ∈ forms, f.Valid ∧ f.Below (D.space v).size) →
    Ensures request True (D.assignForms v dims forms) fun w =>
      D.space w = D.space v ∧ ∀ x y, γ v x → Assigns dims forms x y →
        (D.space v).IsPoint y → γ w y

/-- No core operation loses a point or gives a value that is not well formed. -/
structure DomainCore.SoundOn (D : DomainCore V) (formed : V → Prop) (γ : V → List Rat → Prop)
    (request : Request) : Prop where
  isPoint : ∀ {v x}, γ v x → (D.space v).IsPoint x
  isBottom : ∀ v, formed v → Ensures request True (D.isBottom v) fun answer =>
    answer = true → ∀ x, ¬ γ v x
  isLeq : ∀ a b, formed a → formed b → D.space a = D.space b →
    Ensures request True (D.isLeq a b) fun answer => answer = true → ∀ x, γ a x → γ b x
  meet : ∀ a b, formed a → formed b → D.space a = D.space b →
    Ensures request True (D.meet a b) fun w =>
      formed w ∧ D.space w = D.space a ∧ ∀ x, γ a x → γ b x → γ w x
  meetLinear : ∀ v cs, formed v → (∀ c ∈ cs, c.form.Valid ∧ c.form.Below (D.space v).size) →
    Ensures request True (D.meetLinear v cs) fun w =>
      formed w ∧ D.space w = D.space v ∧ (∀ x, γ v x → (∀ c ∈ cs, c.Admits x) → γ w x) ∧
        ∀ x, γ w x → γ v x
  join : ∀ a b, formed a → formed b → D.space a = D.space b →
    Ensures request True (D.join a b) fun w =>
      formed w ∧ D.space w = D.space a ∧ ∀ x, γ a x ∨ γ b x → γ w x
  widening : ∀ a b, formed a → formed b → D.space a = D.space b →
    Ensures request True (D.widening a b) fun w =>
      formed w ∧ D.space w = D.space a ∧ ∀ x, γ a x ∨ γ b x → γ w x
  addDimensions : ∀ v c project, formed v → c.Inserts (D.space v) →
    (project = true → ∀ d ∈ c.added, d ≤ noDimension) →
    Ensures request True (D.addDimensions v c project) fun w =>
      formed w ∧ D.space w = (D.space v).grow c ∧ ∀ y, ((D.space v).grow c).IsPoint y →
        γ v (readAt (c.shifts (D.space v).size) y) →
        (project = true → ∀ d ∈ c.added, y.getD d 0 = 0) → γ w y
  removeDimensions : ∀ v c, formed v → c.Removes (D.space v) →
    Ensures request True (D.removeDimensions v c) fun w =>
      formed w ∧ D.space w = ⟨(D.space v).ints - c.ints, (D.space v).reals - c.reals⟩ ∧
        ∀ x, γ v x → (D.space w).IsPoint (readAt (c.kept (D.space v).size) x) →
          γ w (readAt (c.kept (D.space v).size) x)
  permuteDimensions : ∀ v p, formed v → p.Valid (D.space v).size →
    Ensures request True (D.permuteDimensions v p) fun w =>
      formed w ∧ D.space w = D.space v ∧ ∀ y, (D.space v).IsPoint y →
        γ v (readAt ((List.range (D.space v).size).map p.image) y) → γ w y
  forget : ∀ v dims project, formed v → (∀ d ∈ dims, d < (D.space v).size) →
    Ensures request True (D.forget v dims project) fun w =>
      formed w ∧ D.space w = D.space v ∧ ∀ x y, γ v x → (D.space v).IsPoint y →
        (∀ d, d ∉ dims → y.getD d 0 = x.getD d 0) →
        (project = true → ∀ d ∈ dims, y.getD d 0 = 0) → γ w y

/-- No operation loses a point or gives a value that is not well formed. -/
structure Domain.SoundOn (D : Domain V) (formed : V → Prop) (γ : V → List Rat → Prop)
    (request : Request) : Prop extends D.toDomainCore.SoundOn formed γ request where
  boundForm : ∀ v f, formed v → f.Valid → f.Below (D.space v).size →
    Ensures request True (D.boundForm v f) fun i => ∀ x r, γ v x → f.Reaches x r → i.Spans r
  assignForms : ∀ v dims forms, formed v → dims.length = forms.length → dims.Nodup →
    (∀ d ∈ dims, d < (D.space v).size) →
    (∀ f ∈ forms, f.Valid ∧ f.Below (D.space v).size) →
    Ensures request True (D.assignForms v dims forms) fun w =>
      formed w ∧ D.space w = D.space v ∧ ∀ x y, γ v x → Assigns dims forms x y →
        (D.space v).IsPoint y → γ w y

def Domain.BoundsForms (D : Domain V) (formed : V → Prop) (γ : V → List Rat → Prop)
    (request : Request) : Prop :=
  ∀ v f, formed v → f.Valid → f.Below (D.space v).size →
    Ensures request True (D.boundForm v f) fun i => ∀ x r, γ v x → f.Reaches x r → i.Spans r

theorem DomainCore.Sound.soundOn (sound : D.Sound γ request) :
    D.SoundOn (fun _ => True) γ request where
  isPoint := sound.isPoint
  isBottom v _ := sound.isBottom v
  isLeq a b _ _ := sound.isLeq a b
  meet a b _ _ same := (sound.meet a b same).mono fun _ h => ⟨trivial, h⟩
  meetLinear v cs _ valid := (sound.meetLinear v cs valid).mono fun _ h => ⟨trivial, h⟩
  join a b _ _ same := (sound.join a b same).mono fun _ h => ⟨trivial, h⟩
  widening a b _ _ same := (sound.widening a b same).mono fun _ h => ⟨trivial, h⟩
  addDimensions v c project _ fits representable :=
    (sound.addDimensions v c project fits representable).mono fun _ h => ⟨trivial, h⟩
  removeDimensions v c _ fits := (sound.removeDimensions v c fits).mono fun _ h => ⟨trivial, h⟩
  permuteDimensions v p _ valid := (sound.permuteDimensions v p valid).mono fun _ h => ⟨trivial, h⟩
  forget v dims project _ inside :=
    (sound.forget v dims project inside).mono fun _ h => ⟨trivial, h⟩

theorem Domain.Sound.soundOn {D : Domain V} (sound : D.Sound γ request) :
    D.SoundOn (fun _ => True) γ request where
  toSoundOn := sound.toSound.soundOn
  boundForm v f _ := sound.boundForm v f
  assignForms v dims forms _ same nodup inside valid :=
    (sound.assignForms v dims forms same nodup inside valid).mono fun _ h => ⟨trivial, h⟩

/-! ### Assignment -/

theorem shrink_dropLast (s : Space) (n : Nat) :
    (⟨(s.grow (.append s.size n)).ints - (dropLast s.size n).ints,
      (s.grow (.append s.size n)).reals - (dropLast s.size n).reals⟩ : Space) = s := by
  simp [Space.grow, append, dropLast]

theorem DomainCore.SoundOn.assignByFresh (sound : D.SoundOn formed γ request) {v : V}
    (wf : formed v) {dims : List Nat} (same : dims.length = forms.length) (nodup : dims.Nodup)
    (inside : ∀ d ∈ dims, d < (D.space v).size)
    (valid : ∀ f ∈ forms, f.Valid ∧ f.Below (D.space v).size) :
    Ensures request True (D.assignByFresh v dims forms) fun w =>
      formed w ∧ D.space w = D.space v ∧ ∀ x y, γ v x → Assigns dims forms x y →
        (D.space v).IsPoint y → γ w y := by
  obtain ⟨p, exchange, exchanges⟩ := Permutation.exchange_spec inside
  obtain ⟨shape, below⟩ := forall₂_and.1 valid
  have grownSize := size_grow_append (D.space v) dims.length
  rw [DomainCore.assignByFresh, if_neg (by simp [same])]
  refine (sound.addDimensions v (.append (D.space v).size dims.length) false wf
    (inserts_append _ _) (by simp)).bind ?_
  rintro grown ⟨wf, space, grow⟩
  refine (sound.meetLinear grown _ wf ?_).bind ?_
  · rw [space, grownSize, same]
    exact valid_definitions shape below
  rintro defined ⟨wf, space', define, -⟩
  rw [space] at space'
  refine (sound.forget defined dims false wf ?_).bind ?_
  · rw [space', grownSize]
    exact fun d mem => (inside d mem).trans_le (Nat.le_add_right _ _)
  rintro forgotten ⟨wf, space'', forget⟩
  rw [space'] at space''
  refine .ofExceptBind exchange ?_
  refine (sound.permuteDimensions forgotten p wf ?_).bind ?_
  · rw [space'', grownSize]
    exact exchanges.valid
  rintro exchanged ⟨wf, space₃, permute⟩
  rw [space''] at space₃
  refine (sound.removeDimensions exchanged (.dropLast (D.space v).size dims.length) wf ?_).mono ?_
  · rw [space₃]
    exact removes_dropLast _ _
  rintro w ⟨wf, result, remove⟩
  rw [space₃, shrink_dropLast] at result
  refine ⟨wf, result, ?_⟩
  rintro x y old ⟨vs, values, rfl⟩ point
  have length : x.length = (D.space v).size := (sound.isPoint old).length
  have count : vs.length = dims.length := (same.trans values.length_eq).symm
  -- the point with the values of the forms on the fresh dimensions, then with both exchanged
  have isPoint := (sound.isPoint old).extend count
  obtain ⟨swapped, swap, newPart, isPoint'⟩ := exchanges.exists_swapped inside length count point
  have inGrown : γ grown (x ++ vs) := by
    refine grow _ isPoint ?_ (by simp)
    rwa [shifts_append, readAt_range_append length]
  have holds := (holds_definitions shape below length values.length_eq).2 values
  have inDefined : γ defined (x ++ vs) := define _ inGrown fun c mem => (holds c mem).admits
  have inForgotten : γ forgotten (x ++ vs) :=
    forget _ _ inDefined (space'.symm ▸ isPoint) (fun _ _ => rfl) (by simp)
  have inExchanged : γ exchanged swapped := by
    refine permute _ (space''.symm ▸ isPoint') ?_
    rwa [space'', grownSize, ← swap, exchanges.readAt_readAt nodup (by simp [length, count])]
  rw [space₃, grownSize, kept_dropLast] at remove
  simpa only [newPart] using remove swapped inExchanged (by rwa [newPart, result])

def LinearForm.IsInhabited (f : LinearForm) : Prop :=
  f.constant.toInterval.isEmpty = false ∧ ∀ e ∈ f.entries, e.2.toInterval.isEmpty = false

namespace DomainCore.SoundOn

variable {D : Domain V} {v a b : V} {c : LinearConstraint}

theorem substituteForms (sound : D.toDomainCore.SoundOn formed γ request) (wf : formed v)
    {dims : List Nat} (same : dims.length = forms.length)
    (inside : ∀ d ∈ dims, d < (D.space v).size)
    (valid : ∀ f ∈ forms, f.Valid ∧ f.Below (D.space v).size) :
    Ensures request True (D.substituteForms v dims forms) fun w =>
      formed w ∧ D.space w = D.space v ∧ ∀ x y, (D.space v).IsPoint x →
        Assigns dims forms x y → γ v y → γ w x := by
  obtain ⟨p, exchange, exchanges⟩ := Permutation.exchange_spec inside
  obtain ⟨shape, below⟩ := forall₂_and.1 valid
  have grownSize := size_grow_append (D.space v) dims.length
  rw [Domain.substituteForms, if_neg (by simp [same])]
  refine (sound.addDimensions v (.append (D.space v).size dims.length) false wf
    (inserts_append _ _) (by simp)).bind ?_
  rintro grown ⟨wf, space, grow⟩
  refine .ofExceptBind exchange ?_
  refine (sound.permuteDimensions grown p wf ?_).bind ?_
  · rw [space, grownSize]
    exact exchanges.valid
  rintro exchanged ⟨wf, space', permute⟩
  rw [space] at space'
  -- the old values are now on the fresh dimensions, so the forms are read at the new ones
  refine (sound.meetLinear exchanged _ wf ?_).bind ?_
  · rw [space', grownSize, same]
    exact valid_definitions shape below
  rintro defined ⟨wf, space'', define, -⟩
  rw [space'] at space''
  refine (sound.removeDimensions defined (.dropLast (D.space v).size dims.length) wf ?_).mono ?_
  · rw [space'']
    exact removes_dropLast _ _
  rintro w ⟨wf, result, remove⟩
  rw [space'', shrink_dropLast] at result
  refine ⟨wf, result, ?_⟩
  rintro x y point ⟨vs, values, rfl⟩ image
  have count : vs.length = dims.length := (same.trans values.length_eq).symm
  have oldPart := readAt_range_append point.length vs
  obtain ⟨swapped, swap, newPart, isPoint'⟩ :=
    exchanges.exists_swapped inside point.length count (sound.isPoint image)
  have inGrown : γ grown swapped := by
    refine grow _ isPoint' ?_ (by simp)
    rwa [shifts_append, newPart]
  have inExchanged : γ exchanged (x ++ vs) := by
    refine permute _ (space.symm ▸ point.extend count) ?_
    rwa [space, grownSize, swap]
  have holds := (holds_definitions shape below point.length values.length_eq).2 values
  have inDefined : γ defined (x ++ vs) := define _ inExchanged fun c mem => (holds c mem).admits
  rw [space'', grownSize, kept_dropLast] at remove
  simpa only [oldPart] using remove _ inDefined (by rwa [oldPart, result])

/-! ### Thresholds -/

section

variable (sound : D.toDomainCore.SoundOn formed γ request) (bounds : D.BoundsForms formed γ request)
include sound bounds

theorem satLinear (wf : formed v) (valid : c.form.Valid) (below : c.form.Below (D.space v).size) :
    Ensures request True (D.satLinear v c) fun answer =>
      answer = true → ∀ x r, γ v x → c.form.Reaches x r →
        c.comparison.Admits c.modulus r := by
  refine (sound.isBottom v wf).bind fun empty h => ?_
  cases empty with
  | true => exact ensures_pure fun _ x _ inside => absurd inside (h rfl x)
  | false =>
    refine (bounds v c.form wf valid below).bind fun i values => ?_
    refine ensures_pure fun yes x r inside reaches => ?_
    have spans := values x r inside reaches
    rw [spans.not_isEmpty] at yes
    exact Comparison.admits_of_includes yes spans

theorem satLinear_both (wf : formed a) (wf' : formed b) (same : D.space a = D.space b)
    (valid : c.form.Valid) (below : c.form.Below (D.space a).size) (inhabited : c.form.IsInhabited) :
    Ensures request True (do if ← D.satLinear a c then D.satLinear b c else return false)
      fun answer => answer = true → ∀ x, γ a x ∨ γ b x → c.Admits x := by
  refine (sound.satLinear bounds wf valid below).bind fun first h => ?_
  cases first with
  | false => exact ensures_pure (by simp)
  | true =>
    refine (sound.satLinear bounds wf' valid (same ▸ below)).mono fun second h' yes x inside => ?_
    obtain ⟨k, spans⟩ := Interval.exists_spans inhabited.1
    obtain ⟨t, sum⟩ := Terms.exists_reaches (x := x) inhabited.2
    have reaches : c.form.Reaches x _ := ⟨k, t, spans, sum, rfl⟩
    rcases inside with inA | inB
    · exact ⟨_, reaches, h rfl x _ inA reaches⟩
    · exact ⟨_, reaches, h' yes x _ inB reaches⟩

theorem wideningThreshold (wf : formed a) (wf' : formed b) {thresholds : List LinearConstraint}
    (same : D.space a = D.space b)
    (valid : ∀ c ∈ thresholds, c.form.Valid ∧ c.form.Below (D.space a).size)
    (inhabited : ∀ c ∈ thresholds, c.form.IsInhabited) :
    Ensures request True (D.wideningThreshold a b thresholds) fun w =>
      formed w ∧ D.space w = D.space a ∧ ∀ x, γ a x ∨ γ b x → γ w x := by
  refine (sound.widening a b wf wf' same).bind ?_
  rintro w ⟨wfW, space, includes⟩
  -- only constraints that admit all points of both values are kept
  have kept (c : LinearConstraint) mem := sound.satLinear_both bounds wf wf'
    same (valid c mem).1 (valid c mem).2 (inhabited c mem)
  refine (ensures_filterM thresholds kept).bind fun satisfied h => ?_
  refine (sound.meetLinear w satisfied wfW fun c mem => space ▸ valid c (h c mem).1).mono ?_
  rintro _ ⟨wfR, space', keeps, -⟩
  exact ⟨wfR, space'.trans space, fun x inside =>
    keeps x (includes x inside) fun c mem => (h c mem).2 x inside⟩

end

end DomainCore.SoundOn

theorem Domain.SoundOn.wideningThreshold {D : Domain V} {a b : V}
    (sound : D.SoundOn formed γ request) (wf : formed a) (wf' : formed b)
    {thresholds : List LinearConstraint} (same : D.space a = D.space b)
    (valid : ∀ c ∈ thresholds, c.form.Valid ∧ c.form.Below (D.space a).size)
    (inhabited : ∀ c ∈ thresholds, c.form.IsInhabited) :
    Ensures request True (D.wideningThreshold a b thresholds) fun w =>
      formed w ∧ D.space w = D.space a ∧ ∀ x, γ a x ∨ γ b x → γ w x :=
  sound.toSoundOn.wideningThreshold sound.boundForm wf wf' same valid inhabited

namespace Domain.Sound

variable {D : Domain V} {v a b : V}

theorem substituteForms (sound : D.Sound γ request) {dims : List Nat}
    (same : dims.length = forms.length) (inside : ∀ d ∈ dims, d < (D.space v).size)
    (valid : ∀ f ∈ forms, f.Valid ∧ f.Below (D.space v).size) :
    Ensures request True (D.substituteForms v dims forms) fun w =>
      D.space w = D.space v ∧ ∀ x y, (D.space v).IsPoint x → Assigns dims forms x y → γ v y →
        γ w x :=
  (sound.soundOn.substituteForms trivial same inside valid).mono fun _ h => h.2

theorem wideningThreshold (sound : D.Sound γ request) {thresholds : List LinearConstraint}
    (same : D.space a = D.space b)
    (valid : ∀ c ∈ thresholds, c.form.Valid ∧ c.form.Below (D.space a).size)
    (inhabited : ∀ c ∈ thresholds, c.form.IsInhabited) :
    Ensures request True (D.wideningThreshold a b thresholds) fun w =>
      D.space w = D.space a ∧ ∀ x, γ a x ∨ γ b x → γ w x :=
  (sound.soundOn.wideningThreshold trivial trivial same valid inhabited).mono fun _ h => h.2

end Domain.Sound

end Enclosure
