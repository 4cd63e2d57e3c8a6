import Enclosure.Proofs.Polyhedron.Soundness

/-!
# Exact assignment and substitution

If the coefficients of the forms are finite numbers and their constants have a value, then without a
limit assignment and substitution are exact over all rational vectors.
-/

namespace Enclosure

open SpaceChange LinearConstraint

variable {f : LinearForm} {forms : List LinearForm} {size n d : Nat}

namespace Polyhedron

variable {request : Request} {risk : Prop} {p v : Polyhedron} {s : Space} {strict : Bool}
  {dims : List Nat} {x vs z : List Rat}

/-! ### The single steps -/

theorem ensures_extend (v : Polyhedron) (n : Nat) :
    Op.Ensures request risk (v.addDimensions (.append v.space.size n) false) fun q =>
      q.space = v.space.grow (.append v.space.size n) ∧
        ExtendsBy v.space.size n v.Contains q.Contains := by
  refine (ensures_addDimensions (inserts_append _ n) (by simp)).mono ?_
  rintro q ⟨space, contains⟩
  refine ⟨space, fun z length => ?_⟩
  rw [contains, size_grow_append, shifts_append]
  simp [length]

theorem relaxes_definition {bounds : List Interval} (valid : f.Valid) (below : f.Below size)
    (regular : f.IsRegular) (fresh : size ≤ d) (inside : d < s.size) (real : s.isInt d = false) :
    Relaxes request risk bounds s (fun c x => x.length = s.size ∧ c.Holds x) (fun c x => c.Holds x)
      (definition d f) := by
  have kept := regular.definition valid d
  refine (LinearBound.ensures_relax_equation (valid_definition valid d)
    (below_definition valid below fresh inside) rfl kept.isQuasilinear
    kept.finite_nonzero ⟨(d, .rational 1), ?_, real⟩ kept.inhabited).mono ?_
  · exact (perm_nonzero_definition valid below fresh).symm.subset (by simp)
  · rintro - ⟨bs, rfl, shape, holds⟩
    refine ⟨?_, fun x needed => ⟨bs, rfl, (holds x needed.1).2 needed.2⟩, ?_⟩
    · rintro _ ⟨⟩ b mem
      exact (shape b mem).1
    · rintro _ ⟨⟩ x length each
      exact (holds x length).1 fun b mem => each b mem (shape b mem).2

theorem ensures_define (strict : Bool) (space : p.space = s.grow (.append s.size forms.length))
    (valid : ∀ f ∈ forms, f.Valid) (below : ∀ f ∈ forms, f.Below s.size)
    (regular : ∀ f ∈ forms, f.IsRegular) :
    Op.Ensures request risk
      (p.meetLinear strict (definitions s.size forms)) fun q =>
        q.space = p.space ∧ DefinesBy forms s.size p.Contains q.Contains := by
  have grownSize := size_of_append space
  have quasilinear : (definitions s.size forms).all (·.form.isQuasilinear) = true := by
    refine List.all_eq_true.2 fun c mem => ?_
    exact (isRegular_definitions valid regular c mem).isQuasilinear
  have relaxes (c : LinearConstraint) (mem : c ∈ definitions s.size forms) :
      Relaxes request risk (.replicate p.space.size (.top .rational)) p.space
        (fun c x => x.length = p.space.size ∧ c.Holds x) (fun c x => c.Holds x) c := by
    obtain ⟨k, f, found, rfl⟩ := mem_definitions.1 mem
    have inForms := List.mem_of_getElem? found
    obtain ⟨_, -⟩ := List.getElem?_eq_some_iff.1 found
    refine relaxes_definition (valid f inForms) (below f inForms) (regular f inForms)
      (Nat.le_add_right _ k) (by omega) ?_
    -- the integer dimensions come first, so the fresh ones are real
    simp only [space, Space.isInt, Space.grow, append, Space.size, decide_eq_false_iff_not]
    omega
  rw [meetLinear, if_pos quasilinear]
  refine (ensures_addConstraints strict relaxes).mono ?_
  rintro q ⟨result, keeps, gives⟩
  refine ⟨result, fun x vs old fresh => ?_⟩
  rw [← holds_definitions valid below old fresh.symm]
  constructor
  · exact (gives _)
  · exact fun inside => keeps _ inside.1 fun c mem => ⟨inside.1.1, inside.2 c mem⟩

theorem ensures_dropFresh (free : ¬ request.Limited) (space : p.space = s.grow (.append s.size n)) :
    Op.Ensures request request.Limited (p.removeDimensions (.dropLast s.size n)) fun q =>
      q.space = s ∧ DropsLast s.size n p.Contains q.Contains := by
  have fits : (dropLast s.size n).Removes p.space :=
    space ▸ removes_dropLast s n
  have grownSize := size_of_append space
  refine (ensures_removeDimensions fits).mono ?_
  rintro q ⟨result, keeps, exact⟩
  rw [space, shrink_dropLast] at result
  rw [grownSize, kept_dropLast] at keeps exact
  refine ⟨result, drop_last (fun z inP => inP.1.trans grownSize) fun x => ⟨fun inside => ?_, ?_⟩⟩
  · obtain ⟨z, inP, rfl⟩ := exact free x inside
    exact ⟨z, inP, rfl⟩
  · rintro ⟨z, inP, rfl⟩
    exact keeps z inP

theorem ensures_forgetOld (free : ¬ request.Limited) (grownSize : p.space.size = size + n)
    (inside : ∀ d ∈ dims, d < size) :
    Op.Ensures request request.Limited (p.forget dims false) fun q =>
      q.space = p.space ∧ ForgetsFirst dims size n p.Contains q.Contains := by
  refine (ensures_forget (fun d mem => ?_) false).mono ?_
  · rw [grownSize]
    exact (inside d mem).trans_le (Nat.le_add_right size n)
  rintro q ⟨space, keeps, exact⟩
  refine ⟨space, forget_first inside (fun z inP => inP.1.trans grownSize) fun y => ⟨?_, ?_⟩⟩
  · exact fun inQ => ⟨inQ.1.trans (space ▸ grownSize), (exact free y inQ).1⟩
  · rintro ⟨length, z, inP, same⟩
    exact keeps z y inP (length.trans grownSize.symm) same (by simp)

/-! ### Assignment and substitution -/

theorem ensures_exchange {perm : Permutation} (exchanges : perm.Exchanges size dims n)
    (grownSize : p.space.size = n) :
    Op.Ensures request risk (p.permuteDimensions perm) fun q =>
      q.space = p.space ∧ ReadsThrough n p.Contains q.Contains perm := by
  subst grownSize
  refine (ensures_permuteDimensions exchanges.valid).mono ?_
  rintro q ⟨space, contains⟩
  refine ⟨space, fun z length => ?_⟩
  rw [contains]
  simp [length]

theorem ensures_assignByFresh (free : ¬ request.Limited) (same : dims.length = forms.length)
    (nodup : dims.Nodup) (inside : ∀ d ∈ dims, d < v.space.size)
    (valid : ∀ f ∈ forms, f.Valid) (below : ∀ f ∈ forms, f.Below v.space.size)
    (regular : ∀ f ∈ forms, f.IsRegular) :
    Op.Ensures request request.Limited ((core strict).assignByFresh v dims forms) fun w =>
      w.space = v.space ∧ ∀ y, w.Contains y ↔ ∃ x, v.Contains x ∧ Assigns dims forms x y := by
  obtain ⟨_, exchange, exchanges⟩ := Permutation.exchange_spec inside
  rw [DomainCore.assignByFresh, if_neg (by simp [same])]
  refine (ensures_extend v dims.length).bind ?_
  rintro _ ⟨space₁, inGrown⟩
  have size₁ := size_of_append space₁
  refine (ensures_define strict (same ▸ space₁) valid below regular).bind ?_
  rintro _ ⟨space₂, inDefined⟩
  refine (ensures_forgetOld free (space₂ ▸ size₁) inside).bind ?_
  rintro _ ⟨space₃, inForgotten⟩
  refine .ofExceptBind exchange ?_
  refine (ensures_exchange exchanges (by rw [space₃, space₂, size₁])).bind ?_
  rintro _ ⟨space₄, inExchanged⟩
  refine (ensures_dropFresh free (space₄.trans (space₃.trans (space₂.trans space₁)))).mono ?_
  rintro w ⟨space, inResult⟩
  exact ⟨space, image_of_steps exchanges same inside (fun x inV => inV.1) inGrown nodup inDefined
    inForgotten inExchanged inResult⟩

theorem ensures_substituteForms (free : ¬ request.Limited) (same : dims.length = forms.length)
    (inside : ∀ d ∈ dims, d < v.space.size)
    (valid : ∀ f ∈ forms, f.Valid) (below : ∀ f ∈ forms, f.Below v.space.size)
    (regular : ∀ f ∈ forms, f.IsRegular) :
    Op.Ensures request request.Limited ((domain strict).substituteForms v dims forms) fun w =>
      w.space = v.space ∧ ∀ x, w.Contains x ↔ ∃ y, Assigns dims forms x y ∧ v.Contains y := by
  obtain ⟨_, exchange, exchanges⟩ := Permutation.exchange_spec inside
  rw [Domain.substituteForms, if_neg (by simp [same])]
  refine (ensures_extend v dims.length).bind ?_
  rintro _ ⟨space₁, inGrown⟩
  have size₁ := size_of_append space₁
  refine .ofExceptBind exchange ?_
  refine (ensures_exchange exchanges size₁).bind ?_
  rintro _ ⟨space₂, inExchanged⟩
  refine (ensures_define strict (by rw [space₂, space₁, same]) valid below regular).bind ?_
  rintro _ ⟨space₃, inDefined⟩
  refine (ensures_dropFresh free (space₃.trans (space₂.trans space₁))).mono ?_
  rintro w ⟨space, inResult⟩
  exact ⟨space, preimage_of_steps exchanges same inside (fun x inV => inV.1) inGrown inExchanged
    inDefined inResult⟩

/-- Without a limit on sizes, the vectors of an assignment are the images of the vectors of a
polyhedron, with all forms read at the old vector, and those of a substitution are the vectors
with an image in it. -/
theorem assignment_substitution_exact (strict : Bool) (request : Request)
    (unlimited : request.options.maxObjectSize = 0) (v : Polyhedron) (dims : List Nat)
    (forms : List LinearForm) (same : dims.length = forms.length) (nodup : dims.Nodup)
    (inside : ∀ d ∈ dims, d < v.space.size)
    (valid : ∀ f ∈ forms, f.Valid ∧ f.Below v.space.size) (regular : ∀ f ∈ forms, f.IsRegular) :
    (Op.Returns request ((domain strict).assignForms v dims forms) fun w =>
      w.space = v.space ∧ ∀ y, w.Contains y ↔ ∃ x, v.Contains x ∧ Assigns dims forms x y) ∧
    Op.Returns request ((domain strict).substituteForms v dims forms) fun w =>
      w.space = v.space ∧ ∀ x, w.Contains x ↔ ∃ y, Assigns dims forms x y ∧ v.Contains y := by
  have free : ¬ request.Limited := by simp [Request.Limited, unlimited]
  have shape : ∀ f ∈ forms, f.Valid := fun f mem => (valid f mem).1
  have below : ∀ f ∈ forms, f.Below v.space.size := fun f mem => (valid f mem).2
  exact ⟨(ensures_assignByFresh free same nodup inside shape below regular).returns free,
    (ensures_substituteForms free same inside shape below regular).returns free⟩

/-- Exchanging two dimensions, one of them an integer, while adding up to one: the second form
reads the old value of the first dimension. -/
theorem exchange_reads_old_values :
    let corner : Polyhedron := ⟨⟨1, 1⟩,
      [⟨[1, 0], 1, false⟩, ⟨[-1, 0], -1, false⟩, ⟨[0, 1], 2, false⟩, ⟨[0, -1], -2, false⟩],
      by decide⟩
    let forms : List LinearForm := [⟨.range (.ofExt (.fin 0) (.fin 1)), .sparse [(1, .rational 1)]⟩,
      ⟨.rational 0, .sparse [(0, .rational 1)]⟩]
    Op.Returns ⟨.assignForms, .standard, []⟩ ((domain true).assignForms corner [0, 1] forms)
      fun w => w.Contains [5 / 2, 1] ∧ ¬ w.Contains [2, 2] := by
  intro corner forms
  have upToOne (q : Rat) :
      (Coefficient.range (.ofExt (.fin 0) (.fin 1))).Has q ↔ 0 ≤ q ∧ q ≤ 1 :=
    and_congr ExtRat.fin_le_fin ExtRat.fin_le_fin
  have valid : ∀ f ∈ forms, f.Valid ∧ f.Below corner.space.size := by
    have coefficient (d : Nat) : ∀ e ∈ [(d, Coefficient.rational 1)], e.2.Valid :=
      List.forall_mem_singleton.2 trivial
    simp only [forms, List.forall_mem_cons, List.not_mem_nil, false_implies, implies_true, and_true]
    unfold LinearForm.Below
    exact ⟨⟨⟨by decide, coefficient 1, (Interval.isRational_ofExt _ _).valid⟩, by decide⟩,
      ⟨⟨by decide, coefficient 0, trivial⟩, by decide⟩⟩
  have regular : ∀ f ∈ forms, f.IsRegular := by
    simp only [forms, List.forall_mem_cons, List.not_mem_nil, false_implies, implies_true, and_true]
    exact ⟨⟨by decide, 0, (upToOne 0).2 (by norm_num)⟩, ⟨by decide, 0, by simp⟩⟩
  obtain ⟨assign, -⟩ := assignment_substitution_exact true ⟨.assignForms, .standard, []⟩ rfl corner
    [0, 1] forms rfl (by decide) (by decide) valid regular
  refine assign.mono ?_
  rintro w ⟨-, contains⟩
  rw [contains, contains]
  have sum (x : List Rat) (d : Nat) (q : Rat) :
      Terms.SumsTo x [(d, Coefficient.rational 1)] q ↔ q = x.getD d 0 := by
    simp [Terms.sumsTo_cons, sub_eq_zero]
  constructor
  · refine ⟨[1, 2], ⟨rfl, by simp [corner, Row.holdsAt, dot]⟩, [5 / 2, 1], ?_, rfl⟩
    refine .cons ⟨1 / 2, (upToOne _).2 (by norm_num), ?_⟩ (.cons ⟨0, by simp, ?_⟩ .nil)
    · exact (sum _ 1 _).2 (by norm_num)
    · exact (sum _ 0 _).2 (by norm_num)
  · rintro ⟨x, ⟨length, rows⟩, vs, values, eq⟩
    obtain ⟨a, b, rfl⟩ := List.length_eq_two.1 length
    obtain ⟨first, vs, -, rest, rfl⟩ := List.forall₂_cons_left_iff.1 values
    obtain ⟨second, vs, ⟨k, isZero, value⟩, -, rfl⟩ := List.forall₂_cons_left_iff.1 rest
    have old : a = 1 := by
      obtain ⟨atMost, atLeast, -⟩ : a ≤ 1 ∧ 1 ≤ a ∧ b ≤ 2 ∧ 2 ≤ b := by
        simpa [corner, Row.holdsAt, dot] using rows
      exact le_antisymm atMost atLeast
    have image : [first, second] = [2, 2] := eq.symm
    obtain ⟨-, rfl⟩ : first = 2 ∧ second = 2 := by simpa using image
    have read := (sum _ 0 _).1 value
    rw [Coefficient.has_rational.1 isZero, old] at read
    norm_num at read

end Polyhedron

end Enclosure
