import Enclosure.Proofs.Box.Exports
import Enclosure.Proofs.Combination
import Enclosure.Proofs.Octagon.ClosedMarks
import Enclosure.Proofs.Octagon.Lattice

/-!
# Dimensions of which nothing is said

A dimension is taken to be free if a value includes what is left of it when the dimension is
forgotten.
-/

namespace Enclosure

open List ExtRat Op BoundMatrix SpaceChange

structure Domain.DropsFree {V : Type} (D : Domain V) (formed void : V → Prop)
    (free : V → Nat → Prop) (contains γ : V → List Rat → Prop) (request : Request) : Prop where
  points : ∀ v x, γ v x ↔ (D.space v).IsPoint x ∧ contains v x
  inserts : D.InsertsExactly formed contains request
  isBottom : ∀ v, formed v → Returns request (D.isBottom v) fun answer => answer = true ↔ void v
  vacant : ∀ v x, formed v → void v → ¬ γ v x
  isFree : ∀ v d, formed v → d < (D.space v).size →
    Returns request (D.isFree v d) fun answer => answer = true ↔ free v d
  leaves : ∀ v d x, formed v → d < (D.space v).size → x.length = (D.space v).size → ¬ free v d →
    contains v x → ∃ q : Rat, q.den = 1 ∧ ¬ contains v (x.set d q)
  removes : ∀ v c, formed v → c.Removes (D.space v) → (∀ d ∈ c.dims, free v d) →
    Returns request (D.removeDimensions v c) fun w =>
      formed w ∧ D.space w = ⟨(D.space v).ints - c.ints, (D.space v).reals - c.reals⟩ ∧
      (∀ x, (D.space v).IsPoint x → (D.space w).IsPoint (readAt (c.kept (D.space v).size) x) →
        (γ w (readAt (c.kept (D.space v).size) x) ↔ γ v x)) ∧
      (¬ void v → ∀ i d, (c.kept (D.space v).size)[i]? = some d → free w i → free v d)

/-- A value over real dimensions contains a vector if some dimension is not free in it, or in what
it is after dimensions were inserted. -/
structure Domain.Reaches {V : Type} (D : Domain V) (formed proper : V → Prop)
    (free : V → Nat → Prop) (contains : V → List Rat → Prop) (request : Request) : Prop where
  self : ∀ v d, formed v → proper v → (D.space v).ints = 0 → ¬ free v d →
    ∃ x, x.length = (D.space v).size ∧ contains v x
  inserted : ∀ v c, formed v → proper v → (D.space v).ints = 0 → c.Inserts (D.space v) →
    Returns request (D.addDimensions v c false) fun w => ∀ d, ¬ free w d →
      ∃ x, x.length = (D.space v).size ∧ contains v x

theorem Domain.Reaches.mono {V : Type} {D : Domain V} {formed proper proper' : V → Prop}
    {free : V → Nat → Prop} {contains : V → List Rat → Prop} {request : Request}
    (h : D.Reaches formed proper free contains request) (imp : ∀ v, proper' v → proper v) :
    D.Reaches formed proper' free contains request where
  self v d hv good := h.self v d hv (imp v good)
  inserted v c hv good := h.inserted v c hv (imp v good)

/-! ### Vectors -/

theorem holds_of_agree {S : List Rat → Prop} {n : Nat} {dims : List Nat}
    (free : ∀ d ∈ dims, ∀ x q, S x → S (x.set d q)) {x y : List Rat} (hx : x.length = n)
    (hy : y.length = n) (agree : ∀ e, e ∉ dims → y.getD e 0 = x.getD e 0) (inside : S x) : S y := by
  induction dims generalizing x with
  | nil =>
    obtain rfl := ext_getD (hy.trans hx.symm) fun e => agree e not_mem_nil
    exact inside
  | cons d dims ih =>
    obtain ⟨first, rest⟩ := forall_mem_cons.1 free
    refine ih rest (x := x.set d (y.getD d 0)) (by rwa [length_set]) ?_ (first x _ inside)
    intro e other
    by_cases same : e = d
    · subst same
      by_cases within : e < x.length
      · rw [getD_set_self within]
      · rw [getD_eq_default _ _ (by omega), getD_eq_default _ _ (by simp; omega)]
    · rw [getD_set_of_ne same]
      exact agree e (by simp [same, other])

theorem exists_integer_mul_gt {a : Rat} (ne : a ≠ 0) (c : Rat) :
    ∃ q : Rat, q.den = 1 ∧ c < q * a := by
  rcases lt_or_gt_of_ne ne with negative | positive
  · obtain ⟨n, below⟩ := exists_int_lt (c / a)
    exact ⟨n, Rat.den_intCast n, (lt_div_iff_of_neg negative).1 below⟩
  · obtain ⟨n, above⟩ := exists_int_gt (c / a)
    exact ⟨n, Rat.den_intCast n, (div_lt_iff₀ positive).1 above⟩

theorem readAt_set {dims : List Nat} {x : List Rat} {i d : Nat} (nodup : dims.Nodup)
    (found : dims[i]? = some d) (inside : d < x.length) (q : Rat) :
    readAt dims (x.set d q) = (readAt dims x).set i q := by
  obtain ⟨within, rfl⟩ := List.getElem?_eq_some_iff.1 found
  refine ext_getD (by simp) fun j => ?_
  by_cases below : j < dims.length
  · have place : dims[j]? = some dims[j] := getElem?_eq_getElem below
    rw [getD_readAt place]
    by_cases same : j = i
    · subst same
      rw [getD_set_self inside, getD_set_self (by simpa using within)]
    · have other : dims[j] ≠ dims[i] := fun equal => same ((nodup.getElem_inj_iff).1 equal)
      rw [getD_set_of_ne other, getD_set_of_ne same, getD_readAt place]
  · rw [getD_eq_default _ _ (by simpa using below), getD_eq_default _ _ (by simpa using below)]

/-! ### Boxes -/

namespace Box

variable {k : Kind} {v : Box}

def IsFree (k : Kind) (v : Box) (d : Nat) : Prop :=
  v.isEmpty = true ∨ ∀ i, (v.bounds k)[d]? = some i → i.lo.value = .negInf ∧ i.hi.value = .posInf

theorem top_leq_iff {i : Interval} (full : i.isEmpty = false) :
    (Interval.top k).leq i = true ↔ i.lo.value = .negInf ∧ i.hi.value = .posInf := by
  rw [Interval.leq_iff rfl full]
  exact and_congr ⟨fun low => le_antisymm low (negInf_le _), fun same => same.le⟩
    ⟨fun high => le_antisymm (le_posInf _) high, fun same => same.ge⟩

theorem dropsFree (outward : k.IsOutward) (request : Request) :
    (domain k).DropsFree (Fits k) (·.isEmpty = true) (IsFree k) InRanges HasPoint request where
  points := (combines outward request).points
  inserts := insertsExactly k request
  isBottom v _ := returns_pure .rfl
  vacant v x _ void := by
    cases v with
    | empty s => exact not_false
    | ranges s bs => cases void
  isFree v d hv inside := by
    have compared {a b : Box} same : Ensures request False (a.isLeq b) (· = a.within b) :=
      (ensures_requireSame .isLeq same).bind fun _ _ => ensures_pure rfl
    cases v with
    | empty s =>
      have query : Ensures request False ((domain k).isFree (empty s) d) (· = true) :=
        compared rfl
      exact (query.mono fun _ yes => iff_of_true yes (.inl rfl)).returns not_false
    | ranges s bs =>
      obtain ⟨size, full⟩ := hv.formed
      -- only the range of the dimension itself can fail to be included
      have within : (ranges s (bs.set d (.top k))).within (ranges s bs) = true ↔
          (ranges s bs).IsFree k d := by
        rw [within_ranges]
        constructor
        · refine fun within => .inr fun i found => ?_
          have low := lt_of_getElem? found
          exact (top_leq_iff (full i (mem_of_getElem? found))).1
            (within d _ i (getElem?_set_self low) found)
        · rintro (none | free) e i j found place
          · cases none
          · by_cases same : d = e
            · subst same
              rw [getElem?_set_self (lt_of_getElem? place)] at found
              cases found
              exact (top_leq_iff (full j (mem_of_getElem? place))).2 (free j place)
            · rw [getElem?_set_ne same, place] at found
              cases found
              exact i.leq_self
      have inside : d < bs.length := size.symm ▸ inside
      have below : ¬ [d].any (bs.length ≤ ·) = true := by simpa using inside
      have query : Ensures request False ((domain k).isFree (ranges s bs) d)
          (· = (ranges s (bs.set d (.top k))).within (ranges s bs)) := by
        change Ensures request False ((if _ then _ else _) >>= _) _
        rw [if_neg below]
        exact compared rfl
      exact (query.mono fun _ answer => answer ▸ within).returns not_false
  leaves v d x _ inside length constrained within := by
    cases v with
    | empty s => exact within.elim
    | ranges s bs =>
      rw [IsFree, not_or] at constrained
      obtain ⟨-, bounded⟩ := constrained
      push Not at bounded
      obtain ⟨i, found, bounded⟩ := bounded
      have leaves {q : Rat} (beyond : ¬ i.Has q) : ¬ (ranges s bs).InRanges (x.set d q) := by
        intro inBox
        have has := inBox d i found
        rw [getD_set_self (length.symm ▸ inside)] at has
        exact beyond has
      have has := within d i found
      -- a lower bound excludes the integers below it, and without one there is an upper bound
      cases lo : i.lo.value with
      | posInf => exact absurd (lo ▸ has.1) not_posInf_le_fin
      | fin l =>
        obtain ⟨n, below⟩ := exists_int_lt l
        refine ⟨n, Rat.den_intCast n, leaves fun has => ?_⟩
        exact absurd (fin_le_fin.1 (lo ▸ has.1)) (not_le.2 below)
      | negInf =>
        cases hi : i.hi.value with
        | posInf => exact absurd hi (bounded lo)
        | negInf => exact absurd (hi ▸ has.2) not_fin_le_negInf
        | fin h =>
          obtain ⟨n, above⟩ := exists_int_gt h
          refine ⟨n, Rat.den_intCast n, leaves fun has => ?_⟩
          exact absurd (fin_le_fin.1 (hi ▸ has.2)) (not_le.2 above)
  removes v c hv fits free := by
    have fits : c.Removes v.space := fits
    apply Ensures.returns not_false
    change Ensures request False (v.removeDimensions c) _
    unfold removeDimensions
    rw [if_neg (by simpa using fits.inside)]
    apply Ensures.ofExceptBind fits.shrink_eq
    cases v with
    | empty s => exact ensures_pure ⟨fits_empty _, rfl, fun x _ _ => .rfl, absurd rfl⟩
    | ranges s bs =>
      obtain ⟨size, -⟩ := hv.formed
      obtain ⟨length, left, kept⟩ := removeFrom_spec hv fits
      have full := fun i mem => (left i mem).2
      refine ensures_ofExcept (make_eq_ranges length full) ⟨⟨⟨length, full⟩,
        fun i mem => (left i mem).1⟩, rfl, fun x point point' => ?_, ?_⟩
      · rw [hasPoint_iff_inRanges, hasPoint_iff_inRanges]
        refine and_congr (iff_of_true point' point) ⟨fun within d j found => ?_, fun within => ?_⟩
        · -- a range that is dropped has every number
          by_cases dropped : d ∈ c.dims
          · obtain ⟨lo, hi⟩ := (free d dropped).resolve_left Bool.noConfusion j found
            exact ⟨lo ▸ negInf_le _, hi ▸ le_posInf _⟩
          · have below : d < s.size := size ▸ lt_of_getElem? found
            obtain ⟨i, place⟩ := getElem?_of_mem (mem_kept.2 ⟨below, dropped⟩)
            rw [← getD_readAt place x]
            exact within i j ((kept i d place).trans found)
        · rw [removeFrom_eq bs (.top k), size]
          exact .readAt within (fun d mem => size.symm ▸ lt_of_mem_kept mem) _
      · intro _ i d place freeW
        refine .inr fun j found => ?_
        exact freeW.resolve_left Bool.noConfusion j ((kept i d place).trans found)

theorem exists_inRanges (hv : v.Fits k) (proper : v.IsProper) (full : v.isEmpty = false) :
    ∃ x, x.length = v.space.size ∧ v.InRanges x := by
  cases v with
  | empty s => cases full
  | ranges s bs =>
    obtain ⟨size, full⟩ := hv.formed
    obtain ⟨f, members⟩ := @exists_members bs (fun _ => false) full proper (by simp)
    exact ⟨(range s.size).map f, by simp [space],
      (inBox_map_range size).2 fun d i found => (members d i found).1⟩

theorem reaches (k : Kind) (request : Request) :
    (domain k).Reaches (Fits k) IsProper (IsFree k) InRanges request where
  self v d hv proper _ constrained :=
    exists_inRanges hv proper (eq_false_of_ne_true fun empty => constrained (.inl empty))
  inserted v c hv proper _ fits := by
    cases v with
    | empty s =>
      have grown : Ensures request False ((domain k).addDimensions (empty s) c false)
          (·.isEmpty = true) := ensures_pure rfl
      exact (grown.mono fun w void d constrained =>
        absurd (.inl void) constrained).returns not_false
    | ranges s bs =>
      refine (insertsExactly k request (ranges s bs) c hv fits).mono fun w _ d _ => ?_
      exact exists_inRanges hv proper rfl

end Box

/-! ### Octagons -/

namespace Octagon

variable {o : Octagon} {d : Nat} {request : Request} {c : SpaceChange} {x : List Rat}

/-- The matrix has one row and one column for each node of the space. -/
structure IsMirrored (o : Octagon) : Prop where
  square : o.IsSquare
  mirrored : o.empty = false → o.matrix.IsMirrored o.space.size

theorem keeps_isMirrored : domain.Keeps Construction.IsValid IsMirrored := by
  refine (keeps_marked_isMirrored (marksKeep_true _) fun c valid => movesKeep_false valid).congr
    fun o => ⟨fun h => ⟨h.square, h.matrix⟩, fun h => ?_⟩
  exact ⟨rfl, h.square, h.mirrored, fun _ _ => trivial⟩

theorem IsMirrored.marked (mirrored : o.IsMirrored) :
    Marked BoundMatrix.IsMirrored (fun _ => True) o.space o :=
  ⟨rfl, mirrored.square, mirrored.mirrored, fun _ _ => trivial⟩

def IsFree (o : Octagon) (d : Nat) : Prop :=
  o.close.empty = true ∨
    ∀ i j, i ≠ j → nodeDim i = d ∨ nodeDim j = d → o.matrix.entry i j = .posInf

theorem within_forgotten_iff (square : o.IsSquare) (full : o.close.empty = false) {f : Octagon}
    (space : f.space = o.space) (closed : f.close = f) (nonempty : f.empty = false)
    (matrix : f.matrix = forgottenMatrix o.close.matrix [d] false) (squareF : f.IsSquare) :
    f.within o = true ↔ o.IsFree d := by
  have nonempty' : o.empty = false :=
    eq_false_of_ne_true fun empty => by simp [empty_of_empty empty] at full
  have entry {i j : Nat} (left : i < 2 * o.space.size) (right : j < 2 * o.space.size) :
      f.close.matrix.entry i j =
        if i ≠ j ∧ (nodeDim i = d ∨ nodeDim j = d) then .posInf else o.close.matrix.entry i j := by
    have square : o.close.matrix.IsSquare (2 * o.space.size) := space_close o ▸ square.close
    rw [closed, matrix, entry_forgottenMatrix square left right]
    by_cases same : i = j <;> simp [same]
  constructor
  · intro within
    obtain ⟨-, -, entries⟩ :=
      (within_cases squareF within).resolve_left (by simp [closed, nonempty])
    refine .inr fun i j ne dims => ?_
    by_cases inside : i < 2 * o.space.size ∧ j < 2 * o.space.size
    · have atMost := entries i (space ▸ inside.1) j (space ▸ inside.2)
      rw [entry inside.1 inside.2, if_pos ⟨ne, dims⟩] at atMost
      exact le_antisymm (le_posInf _) atMost
    · exact IsSquare.entry_of_not_lt square inside
  · intro free
    have unbounded := free.resolve_left (by simp [full])
    refine within_of_entries squareF nonempty' fun i left j right => ?_
    rw [space] at left right
    rw [entry left right]
    split
    · rename_i dims
      exact (unbounded i j dims.1 dims.2).ge
    · exact entry_close_le square full left right

theorem entry_eq_posInf_or_kept (square : o.IsSquare) (full : o.close.empty = false)
    (free : ∀ d ∈ c.dims, o.IsFree d) {i j : Nat} (ne : i ≠ j) :
    o.matrix.entry i j = .posInf ∨ (i < 2 * o.space.size ∧ j < 2 * o.space.size) ∧
      nodeDim i ∈ c.kept o.space.size ∧ nodeDim j ∈ c.kept o.space.size := by
  have unbounded (d : Nat) dropped := (free d dropped).resolve_left (by simp [full])
  by_cases inside : i < 2 * o.space.size ∧ j < 2 * o.space.size
  · by_cases left : nodeDim i ∈ c.dims
    · exact .inl (unbounded _ left i j ne (.inl rfl))
    · by_cases right : nodeDim j ∈ c.dims
      · exact .inl (unbounded _ right i j ne (.inr rfl))
      · exact .inr ⟨inside, mem_kept.2 ⟨nodeDim_lt.2 inside.1, left⟩,
          mem_kept.2 ⟨nodeDim_lt.2 inside.2, right⟩⟩
  · exact .inl (IsSquare.entry_of_not_lt square inside)

theorem hasPoint_of_holdsOn (mirrored : o.IsMirrored) (full : o.close.empty = false)
    (free : ∀ d ∈ c.dims, o.IsFree d) (point : o.space.IsPoint x)
    (on : o.close.matrix.HoldsOn (c.kept o.space.size) x) : o.HasPoint x := by
  have nonempty : o.empty = false :=
    eq_false_of_ne_true fun empty => by simp [empty_of_empty empty] at full
  -- closing may improve the bounds between the dimensions that are kept, and there are no others
  refine hasPoint_iff.2 ⟨nonempty, point, fun i j => ?_⟩
  by_cases same : i = j
  · subst same
    rw [sub_self]
    by_cases inside : i < 2 * o.space.size
    · exact ((mirrored.mirrored nonempty).diagonal i inside).ge
    · rw [IsSquare.entry_of_not_lt mirrored.square fun both => inside both.1]
      exact le_posInf _
  · rcases entry_eq_posInf_or_kept mirrored.square full free same with none | ⟨inside, left, right⟩
    · exact none ▸ le_posInf _
    · refine le_iff_forall_fin.2 fun q bound => fin_le_fin.2 (on i j q left right ?_)
      exact (entry_close_le mirrored.square full inside.1 inside.2).trans bound

theorem isFree_of_readMatrix (square : o.IsSquare) (full : o.close.empty = false)
    (free : ∀ d ∈ c.dims, o.IsFree d) {n k : Nat} (length : (c.kept o.space.size).length = n)
    (found : (c.kept o.space.size)[k]? = some d)
    (unbounded : ∀ i j, i ≠ j → nodeDim i = k ∨ nodeDim j = k →
      (readMatrix o.close.matrix ((c.kept o.space.size).getD · 0) (2 * n)).entry i j = .posInf) :
    o.IsFree d := by
  refine .inr fun i j ne dims => ?_
  rcases entry_eq_posInf_or_kept square full free ne with none | ⟨inside, left, right⟩
  · exact none
  · obtain ⟨a, place⟩ := getElem?_of_mem left
    obtain ⟨b, place'⟩ := getElem?_of_mem right
    have apart : nodeOf i a ≠ nodeOf j b := by
      intro equal
      have same : a = b := by rw [← nodeDim_nodeOf i a, equal, nodeDim_nodeOf]
      subst same
      have dim : nodeDim i = nodeDim j := Option.some.inj (place.symm.trans place')
      apply ne
      rw [← nodeOf_nodeOf_nodeDim i a, equal, dim, nodeOf_nodeOf_nodeDim]
    have dim {e : Nat} {p : Nat} (place : (c.kept o.space.size)[p]? = some e) (same : e = d) :
        p = k := by
      subst same
      exact (getElem?_inj (lt_of_getElem? place) (nodup_kept c _)).1 (place.trans found.symm)
    have entry := unbounded (nodeOf i a) (nodeOf j b) apart
      (by rw [nodeDim_nodeOf, nodeDim_nodeOf]; exact dims.imp (dim place) (dim place'))
    rw [entry_readMatrix length place place'] at entry
    exact le_antisymm (le_posInf _) (entry ▸ entry_close_le square full inside.1 inside.2)

theorem dropsFree (limit : ¬ request.Limited) :
    domain.DropsFree IsMirrored (·.close.empty = true) IsFree Contains HasPoint request where
  points _ _ := .rfl
  inserts o c mirrored fits := by
    have yields := yields_marked_addDimensions matricesKeep_isMirrored (marksKeep_true _)
      mirrored.marked (c := c) (fun _ _ (none : False) _ => none) false
    refine ((reports_addDimensions mirrored.square limit fits).returns.and_yields yields).mono
      fun w grown => ?_
    exact ⟨⟨grown.1.1, fun full => grown.1.2.1 ▸ grown.2.matrix full⟩, grown.1.2⟩
  isBottom o _ := returns_pure .rfl
  vacant o x mirrored void has := by
    have full : o.close.empty = false := ((hasPoint_close mirrored.square).2 has).2.1
    simp [void] at full
  isFree o d mirrored inside := by
    have square := mirrored.square
    apply Ensures.returns not_false
    refine ((ensures_forget square (forall_mem_singleton.2 inside) false).and_yields
      (yields_forget o [d] false)).bind fun w forgotten => ?_
    obtain ⟨⟨squareW, space, -⟩, shape⟩ := forgotten
    refine (ensures_requireSame .isLeq space).bind fun _ _ => ensures_pure ?_
    rcases shape with ⟨none, rfl⟩ | ⟨full, -, rfl⟩
    · refine iff_of_true (within_of_empty_close ?_) (.inl none)
      rwa [close_close]
    · refine within_forgotten_iff square full space ?_ full rfl squareW
      rw [closed_close full]
      rfl
  leaves o d x _ inside _ constrained inO := by
    obtain ⟨-, length, holds⟩ := inO
    rw [IsFree, not_or] at constrained
    obtain ⟨-, bounded⟩ := constrained
    push Not at bounded
    obtain ⟨i, j, ne, dims, bounded⟩ := bounded
    obtain ⟨b, bound⟩ : ∃ b, o.matrix.entry i j = .fin b := by
      cases entry : o.matrix.entry i j with
      | negInf => exact absurd (entry ▸ holds i j) not_fin_le_negInf
      | fin b => exact ⟨b, rfl⟩
      | posInf => exact absurd entry bounded
    -- the difference is one of a node of the dimension to another node
    obtain ⟨p, a, rfl, other, same⟩ : ∃ p a, nodeDim p = d ∧ p ≠ a ∧
        ∀ y, nodeValue y p - nodeValue y a = nodeValue y i - nodeValue y j := by
      rcases dims with dim | dim
      · exact ⟨i, j, dim, ne, fun y => rfl⟩
      · refine ⟨opposite j, opposite i, by rw [nodeDim_opposite, dim], ?_, fun y => ?_⟩
        · exact fun equal => ne (opposite_inj.1 equal).symm
        · rw [nodeValue_opposite, nodeValue_opposite]
          ring
    obtain ⟨k, above⟩ := exists_setNode_above (length.symm ▸ inside) other b
    refine ⟨if p % 2 = 0 then k else -k, by split <;> simp, fun moved => ?_⟩
    have atMost := moved.2.2 i j
    rw [bound, ← same] at atMost
    exact absurd above (not_lt.2 atMost)
  removes o c mirrored fits free := by
    have square := mirrored.square
    have yields := (yields_marked_removeDimensions
      matricesKeep_isMirrored (marksKeep_true _) mirrored.marked (fun _ => id)
      fun _ _ _ _ => id).and (yields_removeDimensions o c)
    refine (((ensures_removeDimensions square fits).and_yields yields).mono
      fun w removed => ?_).returns not_false
    obtain ⟨⟨squareW, space, keeps⟩, ⟨-, mirroredW⟩, t, _, shape⟩ := removed
    refine ⟨⟨squareW, mirroredW.matrix⟩, space, fun x point point' => ⟨fun inW => ?_, fun inO =>
      keeps x inO point'⟩, fun nonempty k d found freeW => ?_⟩
    · rcases shape with ⟨-, rfl⟩ | ⟨full, length, rfl⟩
      · exact absurd inW not_hasPoint_bottom
      · exact hasPoint_of_holdsOn mirrored full free point ((holds_readMatrix_iff length).1 inW.holds)
    · rcases shape with ⟨empty, -⟩ | ⟨full, length, rfl⟩
      · exact absurd empty nonempty
      · refine isFree_of_readMatrix square full free length found (freeW.resolve_left ?_)
        rw [closed_close full]
        exact Bool.false_ne_true

theorem IsRegular.exists_contains (regular : o.IsRegular) (unmarked : o.closed = false)
    (full : o.close.empty = false) : ∃ x, o.Contains x := by
  rcases o.close_cases with ⟨same, closed | empty⟩ | ⟨same, -⟩ | ⟨m, -, nonempty, closes⟩
  · simp [unmarked] at closed
  · simp [empty_of_empty empty] at full
  · simp [same] at full
  · have regular := regular.regular nonempty
    have loop : o.matrix.shortest.hasNegativeLoop = false := by
      by_contra loop
      rw [close?, eq_true_of_ne_false loop] at closes
      cases closes
    -- rounding comes after the paths, so that they are those of an octagon without integers
    obtain ⟨x, length, holds⟩ := (regular.shortest loop).strengthen.exists_point
    rw [holds_strengthen regular.square.shortest, holds_shortest regular.square] at holds
    exact ⟨x, nonempty, length, holds⟩

theorem reaches (limit : ¬ request.Limited) :
    domain.Reaches IsMirrored (fun o => o.MarkedOn o.space o.space.IsReal) IsFree Contains
      request where
  self o d _ marked real constrained := by
    have formed := marked.isWellFormed real
    by_contra none
    refine constrained (.inl ((formed.empty_close_iff real).2 fun x inO => ?_))
    exact none ⟨x, inO.2.1, inO⟩
  inserted o c mirrored marked real fits := by
    have regular : Marked BoundMatrix.IsRegular (fun _ => True) o.space o :=
      ⟨rfl, mirrored.square, marked.regular.regular, fun _ _ => trivial⟩
    have yields := (yields_marked_addDimensions matricesKeep_isRegular (marksKeep_true _) regular
      (fun _ _ (none : False) _ => none) false).and (yields_addDimensions o c false)
    refine ((reports_addDimensions mirrored.square limit fits).returns.and_yields yields).mono
      fun w grown d constrained => ?_
    obtain ⟨⟨-, space, points⟩, regularW, shape⟩ := grown
    by_contra none
    have void : o.close.empty = true := ((marked.isWellFormed real).empty_close_iff real).2
      fun x inO => none ⟨x, inO.2.1, inO⟩
    have voidW (y : List Rat) : ¬ w.Contains y := fun inW =>
      have inO := (points y (inW.2.1.trans (congrArg Space.size space))).1 inW
      none ⟨_, inO.2.1, inO⟩
    -- so it is found to have no points as well, since the mark of the octagon is right
    have unmarked (closed : w.closed = false) : w.IsFree d := by
      by_contra constrained
      obtain ⟨y, inW⟩ := IsRegular.exists_contains ⟨regularW.square, space ▸ regularW.matrix⟩ closed
        (eq_false_of_ne_true fun empty => constrained (.inl empty))
      exact voidW y inW
    rcases shape with rfl | rfl | ⟨full, ⟨_, rfl⟩ | rfl⟩
    · have origin : (o.space.grow c).IsPoint (replicate (o.space.grow c).size 0) :=
        ⟨length_replicate, fun d _ => by simp⟩
      exact voidW _ (hasPoint_top.2 origin).2
    · exact constrained (.inl rfl)
    · exact constrained (unmarked rfl)
    · cases closed : o.closed with
      | false => exact constrained (unmarked closed)
      | true =>
        rw [close, closed] at void
        exact Bool.false_ne_true (full.symm.trans void)

end Octagon

/-! ### Polyhedra -/

namespace Polyhedron

variable {request : Request}


def IsFree (p : Polyhedron) (d : Nat) : Prop := ∀ x q, p.Contains x → p.Contains (x.set d q)

theorem dropsFree (strict : Bool) (limit : ¬ request.Limited) :
    (domain strict).DropsFree (fun _ => True) (fun p => ∀ x, ¬ p.Contains x) IsFree Contains
      HasPoint request where
  points _ _ := .rfl
  inserts := (combines strict limit).inserts
  isBottom p _ := by
    refine ((ensures_isBottom p).mono fun answer found => ⟨found.1, fun none => ?_⟩).returns limit
    by_contra no
    obtain ⟨x, inP⟩ := found.2 (eq_false_of_ne_true no) limit
    exact none x inP
  vacant p x _ void has := void x has.2
  isFree p d _ inside := by
    apply Ensures.returns limit
    have inside : ∀ e ∈ [d], e < p.space.size := forall_mem_singleton.2 inside
    refine (ensures_forget inside false).bind fun w forgotten => ?_
    obtain ⟨space, keeps, exact⟩ := forgotten
    refine (ensures_isLeq space).mono fun answer found => ⟨fun yes x q inP => ?_, fun free => ?_⟩
    · have length : (x.set d q).length = p.space.size := by rw [length_set]; exact inP.1
      refine found.1 yes _ (keeps x _ inP length ?_ Bool.noConfusion)
      exact fun e other => getD_set_of_ne (by simpa using other) q
    · by_contra no
      obtain ⟨y, inW, notP⟩ := found.2 (eq_false_of_ne_true no) limit
      obtain ⟨⟨x, inP, agree⟩, -⟩ := exact limit y inW
      have length : y.length = p.space.size := inW.1.trans (congrArg Space.size space)
      have free : ∀ e ∈ [d], ∀ x q, p.Contains x → p.Contains (x.set e q) :=
        forall_mem_singleton.2 free
      exact notP (holds_of_agree free inP.1 length agree inP)
  leaves p d x _ inside _ constrained inP := by
    have value (r : Row) {z : List Rat} (length : z.length = p.space.size) q :
        dot r.coeffs (z.set d q) = dot r.coeffs z + (q - z.getD d 0) * r.coeffs.getD d 0 := by
      rw [dot_comm, dot_set (length.symm ▸ inside), dot_comm]
    unfold IsFree at constrained
    push Not at constrained
    -- leaving the polyhedron somewhere shows a row that reads the dimension
    obtain ⟨z, t, inZ, outZ⟩ := constrained
    obtain ⟨r, mem, fails⟩ : ∃ r ∈ p.rows, ¬ r.holdsAt (z.set d t) = true := by
      by_contra all
      push Not at all
      exact outZ ⟨by rw [length_set]; exact inZ.1, all⟩
    have reads : r.coeffs.getD d 0 ≠ 0 := by
      intro zero
      apply fails
      rw [Row.holdsAt_iff, value r inZ.1, zero, mul_zero, add_zero, ← Row.holdsAt_iff]
      exact inZ.2 r mem
    obtain ⟨q, integer, _⟩ :=
      exists_integer_mul_gt reads (r.bound - dot r.coeffs x + x.getD d 0 * r.coeffs.getD d 0)
    refine ⟨q, integer, fun inside' => ?_⟩
    have holds := (Row.holdsAt_iff.1 (inside'.2 r mem)).le
    rw [value r inP.1] at holds
    linarith
  removes p c _ fits free := by
    refine ((ensures_removeDimensions fits).mono fun w removed => ?_).returns limit
    obtain ⟨space, keeps, exact⟩ := removed
    have iff {x : List Rat} (length : x.length = p.space.size) :
        w.Contains (readAt (c.kept p.space.size) x) ↔ p.Contains x := by
      refine ⟨fun inW => ?_, keeps x⟩
      obtain ⟨z, inP, same⟩ := exact limit _ inW
      refine holds_of_agree free inP.1 length (fun e other => ?_) inP
      by_cases below : e < p.space.size
      · -- the entry was read from both vectors
        obtain ⟨i, found⟩ := getElem?_of_mem (mem_kept.2 ⟨below, other⟩)
        rw [← getD_readAt found x, ← same, getD_readAt found]
      · have short := inP.1
        rw [getD_eq_default _ _ (by omega), getD_eq_default _ _ (by omega)]
    refine ⟨trivial, space, fun x point point' => and_congr (iff_of_true point' point)
      (iff point.length), fun _ i d found whole x q inP => ?_⟩
    have below : d < x.length := inP.1.symm ▸ lt_of_mem_kept (mem_of_getElem? found)
    refine (iff (by rw [length_set]; exact inP.1)).1 ?_
    exact (congrArg w.Contains (readAt_set (nodup_kept c _) found below q)).mpr
      (whole _ q ((iff inP.1).2 inP))

theorem reaches (strict : Bool) (request : Request) :
    (domain strict).Reaches (fun _ => True) (fun _ => True) IsFree Contains request where
  self p d _ _ _ constrained := by
    by_contra none
    exact constrained fun x q inP => absurd ⟨x, inP.1, inP⟩ none
  inserted p c _ _ _ fits := by
    have added : Ensures request False (p.addDimensions c false) _ :=
      ensures_addDimensions fits Bool.noConfusion
    refine (added.mono fun w grown d constrained => ?_).returns not_false
    by_contra none
    refine constrained fun y q inW => absurd ⟨_, ?_, ((grown.2 y).1 inW).2.1⟩ none
    exact ((grown.2 y).1 inW).2.1.1

end Polyhedron

end Enclosure
