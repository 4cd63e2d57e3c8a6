import Enclosure.Proofs.Combination
import Enclosure.Proofs.EnvironmentLattice

/-!
# Renaming

Variables are renamed all at once, so that names can be exchanged and passed on.
-/

namespace Enclosure

open List Environment

namespace Environment

variable {e f : Environment} {old new : List String} {v w : String} {r r' : String → String}
  {p : Permutation} {ρ : String → Rat}

/-! ### New names -/

theorem renamed_cons_self (o n : String) (os ns : List String) :
    renamed (o :: os) (n :: ns) o = n := by
  simp [renamed]

theorem renamed_cons_of_ne {o : String} (n : String) (os ns : List String) (other : v ≠ o) :
    renamed (o :: os) (n :: ns) v = renamed os ns v := by
  simp [renamed, lookup_cons, beq_eq_false_iff_ne.2 other]

theorem renamed_of_notMem (other : v ∉ old) : renamed old new v = v := by
  induction old generalizing new with
  | nil => rfl
  | cons o os ih =>
    cases new with
    | nil => rfl
    | cons n ns =>
      obtain ⟨ne, rest⟩ := ne_and_not_mem_of_not_mem_cons other
      rw [renamed_cons_of_ne n os ns ne, ih rest]

theorem map_renamed (nodup : old.Nodup) (lengths : old.length = new.length) :
    old.map (renamed old new) = new := by
  induction old generalizing new with
  | nil => exact (length_eq_zero_iff.1 lengths.symm).symm
  | cons o os ih =>
    obtain ⟨n, ns, rfl⟩ := exists_cons_of_length_eq_add_one lengths.symm
    obtain ⟨other, nodup⟩ := nodup_cons.1 nodup
    have rest : os.map (renamed (o :: os) (n :: ns)) = os.map (renamed os ns) :=
      map_congr_left fun v mem =>
        renamed_cons_of_ne n os ns (ne_of_mem_of_not_mem mem other)
    rw [map_cons, renamed_cons_self, rest, ih nodup (Nat.succ.inj lengths)]

theorem renamed_map (apart : ∀ o ∈ old, r v = r o → v = o) (known : v ∈ old) :
    renamed (old.map r) old (r v) = v := by
  induction old with
  | nil => exact absurd known not_mem_nil
  | cons o os ih =>
    rw [map_cons]
    by_cases same : v = o
    · rw [← same, renamed_cons_self]
    · have other : r v ≠ r o := fun h => same (apart o mem_cons_self h)
      rw [renamed_cons_of_ne o _ _ other]
      exact ih (fun o mem => apart o (mem_cons_of_mem _ mem)) ((mem_cons.1 known).resolve_left same)

theorem renamed_renamed (nodup : old.Nodup) (lengths : old.length = new.length)
    (apart : ∀ o ∈ old, renamed old new v = renamed old new o → v = o) :
    renamed new old (renamed old new v) = v := by
  have names := map_renamed nodup lengths
  by_cases known : v ∈ old
  · have back := renamed_map apart known
    rwa [names] at back
  · -- the name stays, and is none of the new ones
    have other : renamed old new v ∉ old.map (renamed old new) := by
      intro mem
      obtain ⟨o, inOld, same⟩ := mem_map.1 mem
      exact known (apart o inOld same.symm ▸ inOld)
    rw [names] at other
    rw [renamed_of_notMem other, renamed_of_notMem known]

/-! ### Renamed environments -/

structure Renames (r : String → String) (e f : Environment) (p : Permutation) : Prop where
  valid : f.IsValid
  space : f.space = e.space
  ints : ∀ w, w ∈ f.ints ↔ w ∈ e.ints.map r
  reals : ∀ w, w ∈ f.reals ↔ w ∈ e.reals.map r
  perm : p.Valid e.size
  moved : ∀ (d : Nat) v, e.vars[d]? = some v → f.vars[p.image d]? = some (r v)

theorem renames_of_make (made : make (e.ints.map r) (e.reals.map r) = .ok f) :
    Renames r e f ⟨e.vars.filterMap fun v => f.dimension? (r v)⟩ := by
  obtain ⟨ints, reals⟩ := mem_of_make made
  have hf := isValid_of_make made
  obtain ⟨distinct, same⟩ := make_eq_ok_iff.1 made
  rw [← map_append] at distinct
  have space : f.space = e.space := by
    rw [same, space, (perm_sortNames _).length_eq, (perm_sortNames _).length_eq,
      length_map, length_map]
    rfl
  have size : f.vars.length = e.size := length_vars.trans (congrArg Space.size space)
  have known : ∀ v ∈ e.vars, r v ∈ f.vars := by
    intro v mem
    rw [mem_vars, ints, reals]
    exact (mem_vars.1 mem).imp (mem_map_of_mem) (mem_map_of_mem)
  have images : e.vars.filterMap (fun v => f.dimension? (r v)) =
      e.vars.map fun v => f.vars.idxOf (r v) := by
    rw [← filterMap_eq_map]
    refine filterMap_congr fun v mem => ?_
    exact hf.dimension?_eq_some_iff.2 (getElem?_idxOf (known v mem))
  refine ⟨hf, space, ints, reals, ⟨?_, ?_, ?_⟩, fun d v found => ?_⟩
  · rw [images, length_map, length_vars]
  · rw [images]
    refine .map_on (fun v hv w hw same => ?_) (distinct.of_map _)
    exact inj_on_of_nodup_map distinct hv hw ((idxOf_inj (known v hv)).1 same)
  · rw [images]
    intro d mem
    obtain ⟨v, hv, rfl⟩ := mem_map.1 mem
    exact size ▸ idxOf_lt_length_iff.2 (known v hv)
  · have place : (e.vars.filterMap fun v => f.dimension? (r v))[d]? =
        some (f.vars.idxOf (r v)) := by
      rw [images, getElem?_map, found, Option.map_some]
    rw [Permutation.image, getD_eq_getElem?_getD, place]
    exact getElem?_idxOf (known v (mem_of_getElem? found))

namespace Renames

section

variable (h : Renames r e f p)
include h

theorem size_eq : f.size = e.size := congrArg Space.size h.space

theorem mem_vars (known : v ∈ e.vars) : r v ∈ f.vars := by
  obtain ⟨d, found⟩ := getElem?_of_mem known
  exact mem_of_getElem? (h.moved d v found)

theorem dimension?_eq {d : Nat} (found : e.vars[d]? = some v) :
    f.dimension? (r v) = some (p.image d) :=
  h.valid.dimension?_eq_some_iff.2 (h.moved d v found)

theorem symm (he : e.IsValid) (back : ∀ v ∈ e.vars, r' (r v) = v) : Renames r' f e p.inverse := by
  have names {xs ys : List String} (sub : ∀ v ∈ xs, v ∈ e.vars)
      (same : ∀ w, w ∈ ys ↔ w ∈ xs.map r) v : v ∈ xs ↔ v ∈ ys.map r' := by
    simp only [mem_map, same]
    constructor
    · exact fun mem => ⟨r v, ⟨v, mem, rfl⟩, back v (sub v mem)⟩
    · rintro ⟨_, ⟨u, mem, rfl⟩, rfl⟩
      rwa [back u (sub u mem)]
  refine ⟨he, h.space.symm, ?_, ?_, ?_, fun d w found => ?_⟩
  · exact names (fun v mem => Environment.mem_vars.2 (.inl mem)) h.ints
  · exact names (fun v mem => Environment.mem_vars.2 (.inr mem)) h.reals
  · rw [h.size_eq]
    exact Permutation.valid_inverse h.perm
  · have inside : d < e.size := by
      rw [← h.size_eq, ← length_vars]
      exact lt_of_getElem? found
    have known : p.preimage d < e.vars.length := by
      rw [length_vars]
      exact h.perm.preimage_lt inside
    -- the variable that moved here has the name that is undone
    have moved := h.moved _ _ (getElem?_eq_getElem known)
    rw [h.perm.image_preimage inside, found] at moved
    rw [h.perm.image_inverse inside, getElem?_eq_getElem known, Option.some.inj moved,
      back _ (getElem_mem known)]

theorem nodup_map (he : e.IsValid) : (e.vars.map r).Nodup := by
  refine .map_on (fun v hv w hw same => ?_) he.nodup
  -- equal names have one dimension, and that is the image of one dimension only
  obtain ⟨i, hi, rfl⟩ := mem_iff_getElem.1 hv
  obtain ⟨j, hj, rfl⟩ := mem_iff_getElem.1 hw
  have left := h.moved i _ (getElem?_eq_getElem hi)
  have right := h.moved j _ (getElem?_eq_getElem hj)
  have images : p.image i = p.image j := by
    refine (getElem?_inj (lt_of_getElem? left) h.valid.nodup).1 ?_
    rw [left, right, same]
  have places : i = j := by
    rw [length_vars] at hi hj
    rw [← h.perm.preimage_image hi, images, h.perm.preimage_image hj]
  simp only [places]

theorem make_eq (he : e.IsValid) : make (e.ints.map r) (e.reals.map r) = .ok f := by
  have distinct := h.nodup_map he
  rw [vars, map_append] at distinct
  obtain ⟨g, made⟩ : ∃ g, make (e.ints.map r) (e.reals.map r) = .ok g :=
    ⟨_, make_eq_ok_iff.2 ⟨distinct, rfl⟩⟩
  obtain ⟨ints, reals⟩ := mem_of_make made
  rw [made, (isValid_of_make made).ext h.valid (fun w => (ints w).trans (h.ints w).symm)
    fun w => (reals w).trans (h.reals w).symm]

theorem unique {p' : Permutation} (h' : Renames r e f p') : p = p' := by
  have images : p.images = p'.images := by
    rw [h.perm.images_eq, h'.perm.images_eq]
    refine map_congr_left fun d mem => ?_
    have inside : d < e.vars.length := by rwa [length_vars, ← mem_range]
    have left := h.moved d _ (getElem?_eq_getElem inside)
    have right := h'.moved d _ (getElem?_eq_getElem inside)
    exact (getElem?_inj (lt_of_getElem? left) h.valid.nodup).1 (left.trans right.symm)
  exact congrArg Permutation.mk images

theorem isInt?_eq (he : e.IsValid) (known : v ∈ e.vars) : f.isInt? (r v) = e.isInt? v := by
  rcases Environment.mem_vars.1 known with integer | real
  · rw [isInt?_eq_true_iff.2 integer, isInt?_eq_true_iff, h.ints]
    exact mem_map_of_mem integer
  · rw [he.isInt?_eq_false_iff.2 real, h.valid.isInt?_eq_false_iff, h.reals]
    exact mem_map_of_mem real

theorem readAt_point :
    readAt ((range e.size).map p.image) (f.point ρ) = e.point fun v => ρ (r v) := by
  refine ext_getElem (by simp [point, length_vars]) fun d inside known => ?_
  have known : d < e.vars.length := by simpa [point] using known
  have place : ((range e.size).map p.image)[d]? = some (p.image d) := by
    rw [length_vars] at known
    simp [known]
  rw [← getD_eq_getElem _ 0 inside, getD_readAt place,
    getD_point (h.moved d _ (getElem?_eq_getElem known))]
  simp [point]

theorem admits_iff : f.Admits ρ ↔ e.Admits fun v => ρ (r v) := by
  simp only [Admits, h.ints, forall_mem_map]

end

end Renames

theorem rename_eq_ok_iff_renames (he : e.IsValid) : e.rename old new = .ok (f, p) ↔
    old.length = new.length ∧ (∀ v ∈ old, v ∈ e.vars) ∧ Renames (renamed old new) e f p := by
  rw [rename_eq_ok_iff]
  refine and_congr_right fun _ => and_congr_right fun _ => ⟨fun found => ?_, fun h => ?_⟩
  · rw [found.2]
    exact renames_of_make found.1
  · have made := h.make_eq he
    exact ⟨made, h.unique (renames_of_make made)⟩

theorem exists_rename_iff : (∃ f p, e.rename old new = .ok (f, p)) ↔
    old.length = new.length ∧ (∀ v ∈ old, v ∈ e.vars) ∧ (e.vars.map (renamed old new)).Nodup := by
  simp only [rename_eq_ok_iff, vars, map_append, make_eq_ok_iff]
  constructor
  · rintro ⟨f, p, lengths, known, ⟨distinct, -⟩, -⟩
    exact ⟨lengths, known, distinct⟩
  · rintro ⟨lengths, known, distinct⟩
    exact ⟨_, _, lengths, known, ⟨distinct, rfl⟩, rfl⟩

theorem rename_back (he : e.IsValid) (nodup : old.Nodup) (found : e.rename old new = .ok (f, p)) :
    f.rename new old = .ok (e, p.inverse) := by
  obtain ⟨lengths, known, h⟩ := (rename_eq_ok_iff_renames he).1 found
  have back : ∀ v ∈ e.vars, renamed new old (renamed old new v) = v := by
    intro v mem
    refine renamed_renamed nodup lengths fun o inOld same => ?_
    exact inj_on_of_nodup_map (h.nodup_map he) mem (known o inOld) same
  refine (rename_eq_ok_iff_renames h.valid).2 ⟨lengths.symm, fun w mem => ?_, h.symm he back⟩
  have image : w ∈ old.map (renamed old new) := by rwa [map_renamed nodup lengths]
  obtain ⟨v, inOld, rfl⟩ := mem_map.1 image
  exact h.mem_vars (known v inOld)

end Environment

/-! ### Values -/

variable {V : Type}

def DomainCore.PermutesExactly (D : DomainCore V) (formed : V → Prop)
    (contains : V → List Rat → Prop) (request : Request) : Prop :=
  ∀ v p, formed v → p.Valid (D.space v).size →
    Op.Returns request (D.permuteDimensions v p) fun w =>
      formed w ∧ D.space w = D.space v ∧ ∀ y, y.length = (D.space v).size →
        (contains w y ↔ contains v (readAt ((range (D.space v).size).map p.image) y))

/-- A value with renamed variables has the valuations that the value has when the renaming is
undone. -/
def Domain.RenamesExactly (D : Domain V) (formed : V → Prop) (γ : V → List Rat → Prop)
    (m : Manager) : Prop :=
  ∀ a old new f p, a.IsFormed D formed → a.env.rename old new = .ok (f, p) →
    Managed.Returns m (AbstractValue.rename D a old new) fun w =>
      w.env = f ∧ w.manager = a.manager ∧ w.IsFormed D formed ∧
        ∀ ρ, w.Has γ ρ ↔ a.Has γ fun v => ρ (renamed old new v)

theorem DomainCore.PermutesExactly.renamesExactly {D : Domain V} {formed : V → Prop}
    {contains γ : V → List Rat → Prop} {m : Manager}
    (permutes : D.PermutesExactly formed contains (m.request .rename))
    (points : ∀ v x, γ v x ↔ (D.space v).IsPoint x ∧ contains v x) :
    D.RenamesExactly formed γ m := by
  intro a old new f p ha found
  obtain ⟨-, -, renames⟩ := (rename_eq_ok_iff_renames ha.env).1 found
  have size : (D.space a.value).size = a.env.size := by rw [ha.space, size]
  have valid : p.Valid (D.space a.value).size := size ▸ renames.perm
  rw [AbstractValue.rename, found]
  refine (Managed.returns_perform (permutes a.value p ha.value valid)).bind fun w after result => ?_
  obtain ⟨hw, space, moved⟩ := result
  refine Managed.returns_pure ⟨rfl, rfl, ⟨renames.valid, hw, ?_⟩, fun ρ => ?_⟩
  · rw [space, ha.space, renames.space]
  -- types are kept, so that integers are asked for on both sides alike
  have length : (f.point ρ).length = (D.space a.value).size := by
    rw [length_point, renames.space, ha.space]
  rw [AbstractValue.Has, AbstractValue.Has, points, points, space, moved _ length, size,
    renames.readAt_point, ha.space, ← renames.space, isPoint_point, renames.admits_iff,
    renames.space, isPoint_point]

namespace Box

theorem permutesExactly (k : Kind) (request : Request) :
    (core k).PermutesExactly (Fits k) InRanges request := by
  intro v p hv valid
  cases v with
  | empty s => exact Op.returns_pure ⟨hv, rfl, fun y _ => .rfl⟩
  | ranges s bs =>
    obtain ⟨-, full⟩ := hv.formed
    obtain ⟨bs', permuted, length, old, moved⟩ := permute_spec hv valid
    have made : (do make s (← p.permute bs)) = .ok (ranges s bs') := by
      rw [permuted]
      exact make_eq_ranges length fun i mem => full i (old i mem)
    refine (Op.ensures_ofExcept made ?_).returns not_false
    refine ⟨⟨⟨length, fun i mem => full i (old i mem)⟩, fun i mem => ?_⟩, rfl, moved⟩
    exact hv.bounds i (old i mem)

end Box

theorem Octagon.permutesExactly (request : Request) :
    core.PermutesExactly IsSquare Contains request := by
  intro o p square valid
  have sound : Op.Ensures request False (o.permuteDimensions p) _ :=
    ensures_permuteDimensions square valid
  refine ((sound.and_yields (yields_permuteDimensions o p)).returns id).mono fun w both => ?_
  obtain ⟨⟨hw, -, -⟩, -, rfl⟩ := both
  refine ⟨hw, rfl, fun y length => and_congr_right fun _ => and_congr ?_ ?_⟩
  · exact iff_of_true length (by simp [core])
  · rw [BoundMatrix.IsSquare.nodes square]
    exact holds_readMatrix_preimage_iff valid square

theorem Polyhedron.permutesExactly (strict : Bool) (request : Request) :
    (core strict).PermutesExactly (fun _ => True) Contains request := by
  intro v p _ valid
  refine ((ensures_permuteDimensions valid).mono fun q moved => ?_).returns not_false
  exact ⟨trivial, moved.1, fun y length => (moved.2 y).trans (and_iff_right length)⟩

/-- Renaming is possible for lists of equal length whose old names are there, unless two variables
get one name. -/
theorem renaming_carries_facts (m : Manager) :
    (∀ (e : Environment) (old new : List String), e.IsValid →
      ((∃ f p, e.rename old new = .ok (f, p)) ↔ old.length = new.length ∧
        (∀ v ∈ old, v ∈ e.vars) ∧ (e.vars.map (Environment.renamed old new)).Nodup) ∧
      ∀ f p, e.rename old new = .ok (f, p) →
        f.IsValid ∧ Permutation.make p.images = .ok p ∧ p.size = e.size ∧
        (∀ v d, e.dimension? v = some d →
          f.dimension? (Environment.renamed old new v) = some (p.image d)) ∧
        (∀ v ∈ e.vars, f.isInt? (Environment.renamed old new v) = e.isInt? v) ∧
        (old.Nodup → f.rename new old = .ok (e, p.inverse))) ∧
    (∀ k : Kind, k.IsOutward → (Box.domain k).RenamesExactly (Box.Fits k) Box.HasPoint m) ∧
    Octagon.domain.RenamesExactly Octagon.IsSquare Octagon.HasPoint m ∧
    ∀ strict, (Polyhedron.domain strict).RenamesExactly (fun _ => True) Polyhedron.HasPoint m := by
  refine ⟨fun e old new he => ⟨Environment.exists_rename_iff, fun f p found => ?_⟩,
    fun k _ => (Box.permutesExactly k _).renamesExactly fun _ _ => Box.hasPoint_iff_inRanges,
    (Octagon.permutesExactly _).renamesExactly fun _ _ => Iff.rfl,
    fun strict => (Polyhedron.permutesExactly strict _).renamesExactly fun _ _ => Iff.rfl⟩
  obtain ⟨-, -, renames⟩ := (Environment.rename_eq_ok_iff_renames he).1 found
  refine ⟨renames.valid, renames.perm.make_eq, renames.perm.length, fun v d place => ?_,
    fun v known => renames.isInt?_eq he known, fun nodup => Environment.rename_back he nodup found⟩
  exact renames.dimension?_eq (he.dimension?_eq_some_iff.1 place)

/-- Three variables of which two pass their names on. -/
theorem names_passed_on :
    let e : Environment := ⟨["i"], ["x", "y"]⟩
    let f : Environment := ⟨["x"], ["a", "y"]⟩
    let p : Permutation := ⟨[0, 2, 1]⟩
    let old := ["i", "x", "y"]
    let new := ["x", "y", "a"]
    let box : AbstractValue Box := ⟨0, e, .ranges ⟨1, 2⟩
      [.ofExt (.fin 4) (.fin 5), .ofExt (.fin 0) (.fin 1), .ofExt (.fin 2) (.fin 3)]⟩
    e.IsValid ∧ old.Nodup ∧ e.rename old new = .ok (f, p) ∧ f.rename new old = .ok (e, p.inverse) ∧
    box.IsFormed (Box.domain .rational) (Box.Fits .rational) ∧
    Managed.Returns .start (AbstractValue.rename (Box.domain .rational) box old new) fun w =>
      w.env = f ∧ ∀ ρ, w.Has Box.HasPoint ρ ↔ (ρ "x").den = 1 ∧ (4 ≤ ρ "x" ∧ ρ "x" ≤ 5) ∧
        (0 ≤ ρ "y" ∧ ρ "y" ≤ 1) ∧ 2 ≤ ρ "a" ∧ ρ "a" ≤ 3 := by
  intro e f p old new box
  have valid : e.IsValid := ⟨by decide, by decide, by simp [e]⟩
  have nodup : old.Nodup := by decide
  have found : e.rename old new = .ok (f, p) := by decide +kernel
  have formed : box.IsFormed (Box.domain .rational) (Box.Fits .rational) := by
    refine ⟨valid, Box.fits_rational_iff.2 ⟨⟨rfl, by decide⟩, ?_⟩, rfl⟩
    simp [box, Box.bounds, Interval.isOf_rational_iff, Interval.isRational_ofExt]
  obtain ⟨environments, boxes, -⟩ := renaming_carries_facts .start
  obtain ⟨-, -, -, -, -, back⟩ := (environments e old new valid).2 f p found
  refine ⟨valid, nodup, found, back nodup, formed, ?_⟩
  obtain ⟨w, run, env, -, -, points⟩ :=
    boxes .rational Kind.isOutward_rational box old new f p formed found
  refine ⟨w, run, env, fun ρ => (points ρ).trans ?_⟩
  change e.space.IsPoint (e.point _) ∧ InBox _ [ρ "x", ρ "y", ρ "a"] ↔ _
  rw [Environment.isPoint_point, inBox_cons, inBox_cons, inBox_cons, and_iff_left inBox_nil,
    Interval.has_ofExt_fin, Interval.has_ofExt_fin, Interval.has_ofExt_fin]
  exact and_congr_left fun _ => List.forall_mem_singleton

end Enclosure
