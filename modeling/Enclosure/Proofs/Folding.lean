import Enclosure.Proofs.Combination
import Enclosure.Proofs.NamedOperations
import Enclosure.Proofs.Octagon.NamedBounds
import Enclosure.Proofs.Polyhedron.Hull

/-!
# Folds at once and one by one

A list of values is joined, or met, in one operation over the environment of all of them, or one
value after the other over environments that grow.
-/

namespace Enclosure

open List Environment SpaceChange Domain Op

/-! ### Boxes -/

namespace Box

variable {e f : Environment} {bs xs ys : List Interval} {x : String} {d : Nat} {v w : Box}

def rangeOf (e : Environment) (bs : List Interval) (x : String) : Interval :=
  ((e.dimension? x).bind (bs[·]?)).getD (.top .rational)

abbrev NamedRanges := Option (String → Interval)

def named (e : Environment) : Box → NamedRanges
  | empty _ => none
  | ranges _ bs => some (rangeOf e bs)

theorem rangeOf_map (he : e.IsValid) (σ : String → Interval) (x : String) :
    rangeOf e (e.vars.map σ) x = if x ∈ e.vars then σ x else .top .rational := by
  unfold rangeOf
  cases found : e.dimension? x with
  | none =>
    rw [if_neg (dimension?_eq_none_iff.1 found)]
    rfl
  | some d =>
    rw [Option.bind_some, getElem?_map_vars he σ found, if_pos (mem_vars_of_dimension? found)]
    rfl

theorem map_rangeOf (he : e.IsValid) (length : bs.length = e.size) :
    e.vars.map (rangeOf e bs) = bs := by
  obtain ⟨σ, rfl⟩ := exists_map_vars_eq he (.top .rational) length
  exact map_congr_left fun x mem => by rw [rangeOf_map he, if_pos mem]

theorem rangeOf_zipWith {g : Interval → Interval → Interval} (he : e.IsValid)
    (unbounded : g (.top .rational) (.top .rational) = .top .rational)
    (left : xs.length = e.size) (right : ys.length = e.size) :
    rangeOf e (zipWith g xs ys) = fun x => g (rangeOf e xs x) (rangeOf e ys x) := by
  obtain ⟨σ, rfl⟩ := exists_map_vars_eq he (.top .rational) left
  obtain ⟨τ, rfl⟩ := exists_map_vars_eq he (.top .rational) right
  funext x
  rw [zipWith_map, zipWith_self, rangeOf_map he, rangeOf_map he, rangeOf_map he]
  split
  · rfl
  · exact unbounded.symm

open Classical in
noncomputable def makeNamed (r : String → Interval) : NamedRanges :=
  if ∃ x, (r x).isEmpty = true then none else some r

noncomputable def meetNamed : NamedRanges → NamedRanges → NamedRanges
  | some r, some s => makeNamed fun x => (r x).meet (s x)
  | _, _ => none

noncomputable def joinNamed : NamedRanges → NamedRanges → NamedRanges
  | none, b => b
  | a, none => a
  | some r, some s => makeNamed fun x => (r x).join (s x)

theorem named_make {s : Space} (he : e.IsValid) (length : bs.length = s.size) (space : s = e.space) :
    ∃ w, make s bs = .ok w ∧ named e w = makeNamed (rangeOf e bs) := by
  have empties : bs.any (·.isEmpty) = true ↔ ∃ x, (rangeOf e bs x).isEmpty = true := by
    obtain ⟨σ, rfl⟩ := exists_map_vars_eq he (.top .rational) (space ▸ length)
    simp only [any_map, any_eq_true, rangeOf_map he]
    refine exists_congr fun x => ?_
    split
    · exact ⟨And.right, fun empty => ⟨‹_›, empty⟩⟩
    · exact iff_of_false (fun both => absurd both.1 ‹_›) (by decide +kernel)
  refine ⟨_, by rw [make, if_neg (not_not.2 length)], ?_⟩
  unfold makeNamed
  by_cases empty : bs.any (·.isEmpty) = true
  · rw [if_pos empty, if_pos (empties.1 empty), named]
  · rw [if_neg empty, if_neg (mt empties.2 empty), named]

theorem length_of_isOver {s : Space} (h : (domain .rational).Over (Fits .rational) e (ranges s bs)) :
    bs.length = e.size :=
  h.formed.formed.1.trans (congrArg Space.size h.space)

theorem named_combine {s t : Space} (g : Interval → Interval → Interval) (he : e.IsValid)
    (hv : (domain .rational).Over (Fits .rational) e (ranges s xs))
    (hw : (domain .rational).Over (Fits .rational) e (ranges t ys))
    (unbounded : g (.top .rational) (.top .rational) = .top .rational) :
    ∃ w, make s (zipWith g xs ys) = .ok w ∧
      named e w = makeNamed fun x => g (rangeOf e xs x) (rangeOf e ys x) := by
  obtain rfl : s = t := hv.space.trans hw.space.symm
  rw [← rangeOf_zipWith he unbounded (length_of_isOver hv) (length_of_isOver hw)]
  exact named_make he (length_zipWith hv.formed.formed hw.formed.formed g) hv.space

theorem hasView : (domain .rational).HasView (Fits .rational) HasPoint named where
  insert request e f c v free he hf h hv := by
    have space : v.space = e.space := hv.space
    have fits : c.Inserts v.space := space ▸ h.fits
    refine returns_over (insertsExactly .rational request v c hv.formed fits)
      ((congrArg (Space.grow · c) space).trans h.space) ?_
    cases v with
    | empty s => exact returns_pure rfl
    | ranges s bs =>
      obtain ⟨length, new⟩ := insertInto_spec hv.formed fits false
      have made := make_eq_ranges length fun i mem => (new i mem).2
      refine (ensures_ofExcept made (congrArg some (funext fun x => ?_))).returns not_false
      obtain ⟨σ, rfl⟩ := exists_map_vars_eq he (.top .rational) (length_of_isOver hv)
      change rangeOf f (c.insertInto (.top .rational) _) x = _
      rw [h.insertInto_vars hf, rangeOf_map hf, rangeOf_map he]
      by_cases known : x ∈ e.vars
      · obtain ⟨d, place⟩ := getElem?_of_mem known
        rw [if_pos (mem_of_getElem? (h.getElem?_vars_shift place))]
      · rw [if_neg known, ite_self]
  top e f he hf := by
    have free (e : Environment) (he : e.IsValid) :
        named e ((domain .rational).top e.space) = some fun _ => .top .rational := by
      have all : replicate e.space.size (Interval.top .rational) =
          e.vars.map fun _ => .top .rational := by
        rw [map_const', length_vars]
        rfl
      refine congrArg some (funext fun x => ?_)
      rw [all, rangeOf_map he, ite_self]
    exact ⟨⟨fits_top .rational _, rfl⟩, (free e he).trans (free f hf).symm⟩
  bottom e f _ _ := ⟨⟨fits_empty _, rfl⟩, rfl⟩
  meet u hu := by
    refine ⟨meetNamed, fun request e a b free he within ha hb => ?_⟩
    have same : a.space = b.space := ha.space.trans hb.space.symm
    refine returns_over ((ensures_meet ha.formed hb.formed same).returns not_false) ha.space ?_
    refine ((ensures_requireSame _ same).bind fun _ _ => ?_).returns not_false
    cases a with
    | empty s => exact ensures_pure rfl
    | ranges s xs =>
      cases b with
      | empty t => exact ensures_pure rfl
      | ranges t ys =>
        obtain ⟨w, made, seen⟩ := named_combine Interval.meet he ha hb (by decide +kernel)
        exact ensures_ofExcept made seen
  join u hu := by
    refine ⟨joinNamed, fun request e a b free he within ha hb => ?_⟩
    have same : a.space = b.space := ha.space.trans hb.space.symm
    refine returns_over ((ensures_join ha.formed hb.formed same).returns not_false) ha.space ?_
    refine ((ensures_requireSame _ same).bind fun _ _ => ?_).returns not_false
    cases a with
    | empty s => exact ensures_pure rfl
    | ranges s xs =>
      cases b with
      | empty t => exact ensures_pure rfl
      | ranges t ys =>
        obtain ⟨w, made, seen⟩ := named_combine Interval.join he ha hb (by decide +kernel)
        exact .markInexactIf (ensures_ofExcept made seen)
  same request e v w free he hv hw seen := by
    obtain rfl : v = w := by
      have space : v.space = w.space := hv.space.trans hw.space.symm
      cases v with
      | empty s =>
        cases w with
        | empty t => exact congrArg empty space
        | ranges t ys => cases seen
      | ranges s xs =>
        cases w with
        | empty t => cases seen
        | ranges t ys =>
          obtain rfl : s = t := space
          rw [← map_rangeOf he (length_of_isOver hv), ← map_rangeOf he (length_of_isOver hw),
            Option.some.inj seen]
    refine ⟨fun x => .rfl, ?_⟩
    have leq : (domain .rational).Includes request v v := by
      refine ((ensures_requireSame _ rfl).bind fun _ _ => ?_).returns not_false
      exact ensures_pure (within_self v)
    exact equates_of_includes leq leq

end Box

/-! ### Polyhedra -/

namespace Polyhedron

variable {e : Environment} {p a b w : Polyhedron} {A B : Set (String → Rat)} {ρ σ : String → Rat}
  {s t : Rat}

def valuations (e : Environment) (p : Polyhedron) : Set (String → Rat) :=
  {ρ | p.Contains (e.point ρ)}

def mean (s : Rat) (ρ : String → Rat) (t : Rat) (σ : String → Rat) (v : String) : Rat :=
  ρ v * s + σ v * t

def IsScaled (A : Set (String → Rat)) (t : Rat) (σ : String → Rat) : Prop :=
  ∃ ρ ∈ A, ∀ s, 0 < s → mean (s / (s + t)) ρ (1 / (s + t)) σ ∈ A

def mixture (A B : Set (String → Rat)) : Set (String → Rat) :=
  {ρ | ∃ σ t, IsScaled A t σ ∧ IsScaled B (1 - t) (mean 1 ρ (-1) σ) ∧ 0 ≤ t ∧ t ≤ 1}

open Classical in
noncomputable def joinValuations (A B : Set (String → Rat)) : Set (String → Rat) :=
  if A ⊆ B then B else if B ⊆ A then A else mixture A B

theorem point_mean : e.point (mean s ρ t σ) = combine s (e.point ρ) t (e.point σ) := by
  simp [point, combine, mean]

theorem isScaled_valuations (space : p.space = e.space) (nonneg : 0 ≤ t)
    (inside : ∃ ρ, ρ ∈ valuations e p) : IsScaled (valuations e p) t σ ↔
      ∀ r ∈ p.rows, dot r.coeffs (e.point σ) ≤ t * r.bound := by
  have length : (e.point σ).length = p.space.size := space ▸ length_point
  constructor
  · rintro ⟨ρ, inside, means⟩ r mem
    refine dot_le_of_means inside (below_row mem) nonneg length fun s pos => ?_
    exact point_mean ▸ means s pos
  · intro scaled
    obtain ⟨ρ, inside⟩ := inside
    refine ⟨ρ, inside, fun s pos => ?_⟩
    exact (congrArg p.Contains point_mean).mpr (contains_mean inside nonneg length scaled pos)

theorem subset_iff (he : e.IsValid) (ha : a.space = e.space) :
    valuations e a ⊆ valuations e b ↔ ∀ x, a.Contains x → b.Contains x := by
  refine ⟨fun sub x inside => ?_, fun sub _ inside => sub _ inside⟩
  obtain ⟨ρ, rfl⟩ := exists_map_vars_eq he 0 (inside.1.trans (congrArg Space.size ha))
  exact sub inside

theorem valuations_eq (same : ∀ x, w.Contains x ↔ a.Contains x) : valuations e w = valuations e a :=
  Set.ext fun _ => same _

theorem mixes_iff (he : e.IsValid) (ha : a.space = e.space) (hb : b.space = e.space)
    (insideA : ∃ ρ, ρ ∈ valuations e a) (insideB : ∃ ρ, ρ ∈ valuations e b) :
    a.Mixes b (e.point ρ) ↔ ρ ∈ mixture (valuations e a) (valuations e b) := by
  have rest {σ : String → Rat} {t : Rat} : (∀ r ∈ b.rows, dot r.coeffs (e.point ρ) -
      dot r.coeffs (e.point σ) ≤ (1 - t) * r.bound) ↔
        ∀ r ∈ b.rows, dot r.coeffs (e.point (mean 1 ρ (-1) σ)) ≤ (1 - t) * r.bound := by
    refine forall₂_congr fun r _ => ?_
    rw [point_mean, dot_combine (by simp [point]), mul_one, mul_neg_one, sub_eq_add_neg]
  constructor
  · rintro ⟨-, y, t, length, first, second, low, high⟩
    obtain ⟨σ, rfl⟩ := exists_map_vars_eq he 0 (length.trans (congrArg Space.size ha))
    exact ⟨σ, t, (isScaled_valuations ha low insideA).2 first,
      (isScaled_valuations hb (sub_nonneg.2 high) insideB).2 (rest.1 second), low, high⟩
  · rintro ⟨σ, t, first, second, low, high⟩
    exact ⟨ha ▸ length_point, e.point σ, t, ha ▸ length_point,
      (isScaled_valuations ha low insideA).1 first,
      rest.2 ((isScaled_valuations hb (sub_nonneg.2 high) insideB).1 second), low, high⟩

theorem JoinsTo.valuations_eq (h : JoinsTo a b w) (he : e.IsValid) (ha : a.space = e.space)
    (hb : b.space = e.space) :
    valuations e w = joinValuations (valuations e a) (valuations e b) := by
  unfold joinValuations
  rw [subset_iff he ha, subset_iff he hb]
  rcases h with ⟨left, points⟩ | ⟨right, points⟩ | ⟨notLeft, notRight, points⟩
  · rw [if_pos left, Polyhedron.valuations_eq points]
  · split_ifs with left
    · exact Set.ext fun ρ => (points _).trans ⟨left _, right _⟩
    · exact Polyhedron.valuations_eq points
  · rw [if_neg notLeft, if_neg notRight]
    have inhabited {p q : Polyhedron} (hp : p.space = e.space)
        (apart : ¬ ∀ x, p.Contains x → q.Contains x) : ∃ ρ, ρ ∈ valuations e p := by
      simp only [not_forall] at apart
      obtain ⟨x, inside, -⟩ := apart
      obtain ⟨ρ, rfl⟩ := exists_map_vars_eq he 0 (inside.1.trans (congrArg Space.size hp))
      exact ⟨ρ, inside⟩
    exact Set.ext fun ρ => (points _).trans
      (mixes_iff he ha hb (inhabited ha notLeft) (inhabited hb notRight))

theorem hasView (strict : Bool) :
    (domain strict).HasView (fun _ => True) HasPoint valuations where
  insert request e f c v free he hf h hv := by
    have space : v.space = e.space := hv.space
    have fits : c.Inserts v.space := space ▸ h.fits
    refine ((combines strict free).inserts v c trivial fits).mono fun w hw => ?_
    obtain ⟨-, grown, points⟩ := hw
    have space' : w.space = f.space := grown.trans ((congrArg (Space.grow · c) space).trans h.space)
    refine ⟨⟨trivial, space'⟩, Set.ext fun ρ => ?_⟩
    refine (points (f.point ρ) (length_point.trans (congrArg Space.size ?_))).trans ?_
    · exact space'.symm.trans grown
    · rw [hv.space]
      exact iff_of_eq (congrArg v.Contains (readAt_shifts_point h.moved))
  top e f _ _ := ⟨⟨trivial, rfl⟩, Set.ext fun ρ =>
    iff_of_true (contains_top.2 length_point) (contains_top.2 length_point)⟩
  bottom e f _ _ := ⟨⟨trivial, rfl⟩, Set.ext fun ρ =>
    iff_of_false not_contains_bottom not_contains_bottom⟩
  meet u hu := by
    refine ⟨(· ∩ ·), fun request e a b free he within ha hb => ?_⟩
    refine ((ensures_meet (ha.space.trans hb.space.symm)).returns not_false).mono fun w hw => ?_
    exact ⟨⟨trivial, hw.1.trans ha.space⟩, Set.ext fun ρ => hw.2 _⟩
  join u hu := by
    refine ⟨joinValuations, fun request e a b free he within ha hb => ?_⟩
    refine ((ensures_join_spec (ha.space.trans hb.space.symm)).returns free).mono fun w hw => ?_
    exact ⟨⟨trivial, hw.1.trans ha.space⟩, (hw.2.2 free).valuations_eq he ha.space hb.space⟩
  same request e v w free he hv hw seen := by
    have same : v.space = w.space := hv.space.trans hw.space.symm
    have there := (subset_iff he hv.space).1 seen.subset
    have back := (subset_iff he hw.space).1 seen.symm.subset
    refine ⟨fun x => ?_, equates_of_includes ((returns_isLeq_iff free same).2 there)
      ((returns_isLeq_iff free same.symm).2 back)⟩
    exact and_congr (by rw [same]) ⟨there x, back x⟩

end Polyhedron

/-! ### Octagons -/

namespace Octagon

open BoundMatrix

variable {e u : Environment} {o : Octagon}

abbrev MarkedBounds := Option (Bool × NamedBounds)

def bounded (e : Environment) (o : Octagon) : MarkedBounds :=
  if o.empty then none else some (o.closed, named e o.matrix)

noncomputable def closeBounded (u : Environment) : MarkedBounds → MarkedBounds
  | some (false, F) =>
    (closeNamed (namedNodes u) (fun x => decide (x ∈ u.ints)) F).map (true, ·)
  | b => b

def meetBounded : MarkedBounds → MarkedBounds → MarkedBounds
  | some (_, F), some (_, G) => some (false, fun i j => (F i j).min (G i j))
  | _, _ => none

def joinBounded : MarkedBounds → MarkedBounds → MarkedBounds
  | none, b => b
  | a, none => a
  | some (p, F), some (q, G) => some (p && q, fun i j => (F i j).max (G i j))

theorem square_of_isOver (ho : domain.Over IsSquare e o) : o.matrix.IsSquare (2 * e.size) := by
  have square : o.matrix.IsSquare (2 * o.space.size) := ho.formed
  rwa [show o.space = e.space from ho.space] at square

theorem bounded_close (he : e.IsValid) (hu : u.IsValid) (within : e.Within u)
    (ho : domain.Over IsSquare e o) : bounded e o.close = closeBounded u (bounded e o) := by
  have space : o.space = e.space := ho.space
  have closure := map_named_close? he hu within (square_of_isOver ho)
  unfold close
  cases empty : o.empty with
  | true => simp [bounded, empty, closeBounded]
  | false =>
    cases closed : o.closed with
    | true => simp [bounded, closed, closeBounded]
    | false =>
      rw [← space] at closure
      simp only [bounded, empty, closed, closeBounded]
      cases result : o.matrix.close? o.space with
      | none => simp [← closure, result]
      | some m => simp [← closure, result]

theorem named_zipEntries {m n : BoundMatrix} {f : ExtRat → ExtRat → ExtRat} (he : e.IsValid)
    (square : m.IsSquare (2 * e.size)) (zero : f .zero .zero = .zero)
    (infinite : f .posInf .posInf = .posInf) :
    named e (m.mapEntries fun i j v => f v (n.entry i j)) =
      fun i j => f (named e m i j) (named e n i j) := by
  funext i j
  refine named_mapEntries he square (g := fun i j v => f v (named e n i j))
    (fun i j a b left right => ?_) (fun i j unknown => ?_) i j
  · rw [named_eq left right]
  · rw [named_of_none unknown]
    unfold unrelated
    split
    · exact zero
    · exact infinite

theorem named_unbounded (he : e.IsValid) : named e (unbounded (2 * e.size)) = unrelated := by
  funext i j
  rcases place_cases e i j with none | ⟨a, b, left, right⟩
  · exact named_of_none none
  · rw [named_eq left right, unbounded, entry_ofFn,
      if_pos ⟨place_lt he left, place_lt he right⟩, unrelated]
    simp only [eq_iff_of_place he left right]

theorem within_of_eq {v w : Octagon} (square : v.IsSquare) (empties : v.empty = w.empty)
    (matrices : v.empty = false → v.matrix = w.matrix) : v.within w = true := by
  cases empty : v.empty with
  | true => simp [within, close, empty]
  | false =>
    have self := within_self square
    rwa [within, empties, matrices empty] at self

theorem hasView : domain.HasView IsSquare HasPoint bounded where
  insert request e f c v free he hf h hv := by
    have space : v.space = e.space := hv.space
    have fits : c.Inserts v.space := space ▸ h.fits
    have grown : v.space.grow c = f.space := (congrArg (Space.grow · c) space).trans h.space
    have inserted : named f (insertedMatrix v.matrix (c.shifts v.space.size)
        (2 * (v.space.grow c).size)) = named e v.matrix := by
      rw [grown, space]
      exact named_insertedMatrix he hf h
    have seen : Ensures request False (v.addDimensions c false) fun w =>
        bounded f w = bounded e v := by
      refine (reports_exceedsSize free _).returns.ensures.bind fun tooLarge small => ?_
      rw [if_neg (by simp [small])]
      cases empty : v.empty with
      | true => exact ensures_pure (by simp [bounded, empty, bottom])
      | false =>
        refine ensures_pure ?_
        simp only [bounded, empty]
        exact congrArg (fun F => some (v.closed, F)) inserted
    exact returns_over (reports_addDimensions hv.formed free fits).returns grown
      (seen.returns not_false)
  top e f he hf := by
    exact ⟨⟨isSquare_top _, rfl⟩, congrArg (fun F => some (true, F))
      ((named_unbounded he).trans (named_unbounded hf).symm)⟩
  bottom e f _ _ := ⟨⟨isSquare_bottom _, rfl⟩, rfl⟩
  meet u hu := by
    refine ⟨meetBounded, fun request e a b free he within ha hb => ?_⟩
    have same : a.space = b.space := ha.space.trans hb.space.symm
    refine returns_over ((ensures_meet ha.formed hb.formed same).returns not_false) ha.space ?_
    refine ((ensures_requireSame _ same).bind fun _ _ => ?_).returns not_false
    cases left : a.empty with
    | true => exact ensures_pure (by simp [bounded, left, meetBounded, bottom])
    | false =>
      cases right : b.empty with
      | true => exact ensures_pure (by simp [bounded, right, meetBounded, bottom])
      | false =>
        refine ensures_pure ?_
        simp only [bounded, left, right]
        rw [named_zipEntries he (square_of_isOver ha) rfl rfl]
        rfl
  join u hu := by
    refine ⟨fun a b => joinBounded (closeBounded u a) (closeBounded u b),
      fun request e a b free he within ha hb => ?_⟩
    have same : a.space = b.space := ha.space.trans hb.space.symm
    refine returns_over ((ensures_join ha.formed hb.formed same).returns not_false) ha.space ?_
    beta_reduce
    rw [← bounded_close he hu within ha, ← bounded_close he hu within hb]
    have closed : domain.Over IsSquare e a.close := ⟨ha.formed.close, (space_close a).trans ha.space⟩
    refine ((ensures_requireSame _ same).bind fun _ _ => ?_).returns not_false
    dsimp only
    cases left : a.close.empty with
    | true => exact ensures_pure (by simp [bounded, left, joinBounded])
    | false =>
      cases right : b.close.empty with
      | true => exact ensures_pure (by simp [bounded, left, right, joinBounded])
      | false =>
        rw [if_neg Bool.false_ne_true, if_neg Bool.false_ne_true]
        refine .markInexactIf (ensures_pure ?_)
        simp only [bounded, left, right]
        rw [named_zipEntries he (square_of_isOver closed) rfl rfl]
        rfl
  same request e v w free he hv hw seen := by
    have space : v.space = w.space := hv.space.trans hw.space.symm
    obtain ⟨empties, matrices⟩ : v.empty = w.empty ∧ (v.empty = false → v.matrix = w.matrix) := by
      unfold bounded at seen
      cases left : v.empty <;> cases right : w.empty <;> simp [left, right] at seen ⊢
      refine (square_of_isOver hv).ext (square_of_isOver hw) fun a low b low' => ?_
      obtain ⟨i, first⟩ := exists_place he low
      obtain ⟨j, second⟩ := exists_place he low'
      rw [← named_eq first second, ← named_eq first second, seen.2]
    have there := within_of_eq hv.formed empties matrices
    have back := within_of_eq hw.formed empties.symm fun full => (matrices (empties ▸ full)).symm
    have leq {a b : Octagon} (same : a.space = b.space) (within : a.within b = true) :
        domain.Includes request a b := by
      refine ((ensures_requireSame _ same).bind fun _ _ => ?_).returns not_false
      exact ensures_pure within
    refine ⟨fun x => ?_, equates_of_includes (leq space there) (leq space.symm back)⟩
    rw [HasPoint, HasPoint, Contains, Contains, space, ← empties]
    refine and_congr_right fun _ => and_congr_right fun full => ?_
    rw [matrices full]

end Octagon

/-! ### Folds -/

namespace AbstractValue

open Managed

variable {V W : Type} {D : Domain V} {formed : V → Prop} {γ : V → List Rat → Prop}
  {view : Environment → V → W} {m n : Manager} {manager : Nat} {e : Environment}
  {vs : List (AbstractValue V)}

theorem agree_folds (views : D.HasView formed γ view) (hm : m.Unlimited) (hn : n.Unlimited)
    (he : e.IsValid) (hvs : ∀ v ∈ vs, v.IsFormed D formed ∧ v.manager = manager) :
    Agree D γ m n (joinAll D manager e vs) (joinEach D manager e vs) ∧
      Agree D γ m n (meetAll D manager e vs) (meetEach D manager e vs) := by
  refine ⟨agree_combineAll views views.join views.bottom (fun k hk => ?_) he hvs hm hn,
    agree_combineAll views views.meet views.top (fun k hk => ?_) he hvs hm hn⟩
  all_goals
    refine (runsTo_perform hk (Op.returns_pure rfl)).bind fun a after left same => ?_
    exact runsTo_pure left (congrArg (mk manager e) same.symm)

end AbstractValue

open AbstractValue in
/-- Values of one manager are joined, and met, all at once and one by one with the same failure, or
with values over the same environment that have the same points and are equal, for rational boxes,
octagons and polyhedra, if no limit is set to the size of objects. -/
theorem folds_at_once_and_one_by_one (m n : Manager) (hm : m.Unlimited) (hn : n.Unlimited)
    (manager : Nat) (e : Environment) (he : e.IsValid) :
    (∀ vs : List (AbstractValue Box), (∀ v ∈ vs,
        v.IsFormed (Box.domain .rational) (Box.Fits .rational) ∧ v.manager = manager) →
      let D := Box.domain .rational
      Agree D Box.HasPoint m n (joinAll D manager e vs) (joinEach D manager e vs) ∧
        Agree D Box.HasPoint m n (meetAll D manager e vs) (meetEach D manager e vs)) ∧
    (∀ vs : List (AbstractValue Octagon), (∀ v ∈ vs,
        v.IsFormed Octagon.domain Octagon.IsSquare ∧ v.manager = manager) →
      let D := Octagon.domain
      Agree D Octagon.HasPoint m n (joinAll D manager e vs) (joinEach D manager e vs) ∧
        Agree D Octagon.HasPoint m n (meetAll D manager e vs) (meetEach D manager e vs)) ∧
    ∀ (strict : Bool) (vs : List (AbstractValue Polyhedron)), (∀ v ∈ vs,
        v.IsFormed (Polyhedron.domain strict) (fun _ => True) ∧ v.manager = manager) →
      let D := Polyhedron.domain strict
      Agree D Polyhedron.HasPoint m n (joinAll D manager e vs) (joinEach D manager e vs) ∧
        Agree D Polyhedron.HasPoint m n (meetAll D manager e vs) (meetEach D manager e vs) :=
  ⟨fun _ hvs => agree_folds Box.hasView hm hn he hvs,
    fun _ hvs => agree_folds Octagon.hasView hm hn he hvs,
    fun strict _ hvs => agree_folds (Polyhedron.hasView strict) hm hn he hvs⟩

/-- A bound of `y`, and one of `x`, which comes first in the common environment. -/
theorem bounds_folded_both_ways :
    let ofY : AbstractValue Polyhedron := ⟨0, ⟨[], ["y"]⟩, ⟨⟨0, 1⟩, [⟨[1], 1, false⟩], by decide⟩⟩
    let ofX : AbstractValue Polyhedron := ⟨0, ⟨[], ["x"]⟩, ⟨⟨0, 1⟩, [⟨[-1], -2, false⟩], by decide⟩⟩
    let D := Polyhedron.domain true
    AbstractValue.Agree D Polyhedron.HasPoint .start .start
      (AbstractValue.joinAll D 0 .empty [ofY, ofX]) (AbstractValue.joinEach D 0 .empty [ofY, ofX]) := by
  intro ofY ofX D
  have unlimited : Manager.start.Unlimited := fun _ => rfl
  have empty : Environment.empty.IsValid := ⟨.nil, .nil, List.disjoint_nil_left _⟩
  obtain ⟨-, -, fold⟩ := folds_at_once_and_one_by_one .start .start unlimited unlimited 0 .empty empty
  refine (fold true [ofY, ofX] ?_).1
  intro v mem
  rcases List.mem_pair.1 mem with rfl | rfl
  · exact ⟨⟨⟨by simp [ofY], by simp [ofY], by simp [ofY]⟩, trivial, rfl⟩, rfl⟩
  · exact ⟨⟨⟨by simp [ofX], by simp [ofX], by simp [ofX]⟩, trivial, rfl⟩, rfl⟩

end Enclosure
