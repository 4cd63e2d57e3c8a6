import Enclosure.Proofs.Box.Operations
import Enclosure.Proofs.Lattices

/-!
# Boxes are a lattice

Meets and joins of boxes are those of their ranges.
-/

namespace Enclosure

open List Op Interval

/-! ### Ranges -/

namespace Interval

variable {a b i j u : Interval} {k : Kind}

theorem leq_of_isEmpty (empty : a.isEmpty = true) (b : Interval) : a.leq b = true := by
  rw [leq, empty, if_pos rfl]

theorem isEmpty_of_leq (full : a.isEmpty = false) (leq : a.leq b = true) : b.isEmpty = false := by
  by_contra empty
  rw [Interval.leq, full, eq_true_of_ne_false empty] at leq
  exact Bool.false_ne_true leq

theorem kind_bottom (k : Kind) : (bottom k).kind = k := rfl

section

variable (left : i.kind = k) (right : j.kind = k)
include left right

theorem kind_meet : (i.meet j).kind = k := by
  have greater : (i.lo.max j.lo).kind = k := by
    unfold Number.max
    split
    · exact right
    · exact left
  unfold meet canonical
  split
  · exact greater
  · exact greater

theorem kind_join : (i.join j).kind = k := by
  unfold join
  split
  · exact right
  · split
    · exact left
    · unfold Number.min
      split
      · exact right
      · exact left

theorem kind_widening : (i.widening j).kind = k := by
  unfold widening
  split
  · exact right
  · split
    · exact left
    · split
      · exact left
      · exact left

end

theorem bounds_meet (full : i.lo.value ⊔ j.lo.value ≤ i.hi.value ⊓ j.hi.value) :
    (i.meet j).isEmpty = false ∧ (i.meet j).lo.value = i.lo.value ⊔ j.lo.value ∧
      (i.meet j).hi.value = i.hi.value ⊓ j.hi.value := by
  have lower : (i.lo.max j.lo).value = i.lo.value ⊔ j.lo.value := Number.value_max _ _
  have upper : (i.hi.min j.hi).value = i.hi.value ⊓ j.hi.value := Number.value_min _ _
  have whole : isEmpty ⟨i.lo.max j.lo, i.hi.min j.hi⟩ = false := by
    rwa [isEmpty_eq_false_iff, lower, upper]
  rw [meet, canonical, whole]
  exact ⟨whole, lower, upper⟩

theorem meet_leq (empty : (bottom k).isEmpty = true) (left : i.kind = k) (right : j.kind = k)
    (full : i.isEmpty = false) (full' : j.isEmpty = false) :
    (i.meet j).leq i = true ∧ (i.meet j).leq j = true := by
  by_cases common : i.lo.value ⊔ j.lo.value ≤ i.hi.value ⊓ j.hi.value
  · obtain ⟨whole, lower, upper⟩ := bounds_meet common
    rw [leq_iff whole full, leq_iff whole full', lower, upper]
    exact ⟨⟨le_sup_left, inf_le_left⟩, le_sup_right, inf_le_right⟩
  · have none : (i.meet j).isEmpty = true := by
      have crossed : isEmpty ⟨i.lo.max j.lo, i.hi.min j.hi⟩ = true := by
        by_contra whole
        refine common ?_
        have bounds := isEmpty_eq_false_iff.1 (eq_false_of_ne_true whole)
        rwa [Number.value_max, Number.value_min] at bounds
      have kind := kind_meet left right
      rw [meet, canonical, crossed, if_pos rfl, kind_bottom] at kind
      rwa [meet, canonical, crossed, kind]
    exact ⟨leq_of_isEmpty none i, leq_of_isEmpty none j⟩

theorem leq_meet (full : u.isEmpty = false) (left : u.leq i = true) (right : u.leq j = true) :
    (i.meet j).isEmpty = false ∧ u.leq (i.meet j) = true := by
  obtain ⟨lower, upper⟩ := (leq_iff full (isEmpty_of_leq full left)).1 left
  obtain ⟨lower', upper'⟩ := (leq_iff full (isEmpty_of_leq full right)).1 right
  have inner := isEmpty_eq_false_iff.1 full
  obtain ⟨whole, lo, hi⟩ :=
    bounds_meet ((sup_le lower lower').trans (inner.trans (le_inf upper upper')))
  refine ⟨whole, (leq_iff full whole).2 ?_⟩
  rw [lo, hi]
  exact ⟨sup_le lower lower', le_inf upper upper'⟩

section

variable (full : i.isEmpty = false) (full' : j.isEmpty = false)
include full full'

theorem bounds_join :
    (i.join j).isEmpty = false ∧ (i.join j).lo.value = i.lo.value ⊓ j.lo.value ∧
      (i.join j).hi.value = i.hi.value ⊔ j.hi.value := by
  have lower : (i.lo.min j.lo).value = i.lo.value ⊓ j.lo.value := Number.value_min _ _
  have upper : (i.hi.max j.hi).value = i.hi.value ⊔ j.hi.value := Number.value_max _ _
  rw [join, full, full', if_neg Bool.false_ne_true, if_neg Bool.false_ne_true]
  refine ⟨isEmpty_eq_false_iff.2 ?_, lower, upper⟩
  rw [lower, upper]
  exact inf_le_left.trans ((isEmpty_eq_false_iff.1 full).trans le_sup_left)

theorem leq_join : i.leq (i.join j) = true ∧ j.leq (i.join j) = true := by
  obtain ⟨whole, lower, upper⟩ := bounds_join full full'
  rw [leq_iff full whole, leq_iff full' whole, lower, upper]
  exact ⟨⟨inf_le_left, le_sup_left⟩, inf_le_right, le_sup_right⟩

theorem join_leq (left : i.leq u = true) (right : j.leq u = true) : (i.join j).leq u = true := by
  have around := isEmpty_of_leq full left
  obtain ⟨whole, lo, hi⟩ := bounds_join full full'
  obtain ⟨lower, upper⟩ := (leq_iff full around).1 left
  obtain ⟨lower', upper'⟩ := (leq_iff full' around).1 right
  rw [leq_iff whole around, lo, hi]
  exact ⟨le_inf lower lower', sup_le upper upper'⟩

end

end Interval

/-! ### The kind of a box -/

namespace Box

variable {α : Type} {k : Kind} {s : Space} {bs bs' xs ys : List Interval} {a b u v w : Box}
  {request : Request} {f : Interval → Interval → Interval} {operation : DomainOperation}
  {cs : List LinearConstraint} {i : Interval} {d : Nat} {simple : α → Bool}

structure HasKind (k : Kind) (v : Box) : Prop where
  formed : v.IsFormed
  kinds : ∀ i ∈ v.bounds k, i.kind = k

theorem hasKind_empty (s : Space) : (empty s).HasKind k where
  formed := trivial
  kinds i mem := by rw [eq_of_mem_replicate mem, kind_bottom]

theorem hasKind_top (k : Kind) (s : Space) :
    (ranges s (replicate s.size (.top k))).HasKind k where
  formed := ⟨length_replicate, fun i mem => by
    rw [eq_of_mem_replicate mem]
    rfl⟩
  kinds i mem := by
    rw [eq_of_mem_replicate mem]
    rfl

/-! ### Ranges with a property -/

def Each (R : Nat → Interval → Prop) (bs : List Interval) : Prop := ∀ d i, bs[d]? = some i → R d i

def Ranged (s : Space) (R : Nat → Interval → Prop) : Box → Prop
  | empty t => t = s
  | ranges t bs => t = s ∧ (ranges t bs).IsFormed ∧ Each R bs

structure Closed (k : Kind) (s : Space) (R : Nat → Interval → Prop) : Prop where
  fit : ∀ d i, R d (fit k (s.isInt d) i)
  filler : ∀ d project, R d (filler k project)
  meet : ∀ d i j, R d i → R d j → R d (i.meet j)
  join : ∀ d i j, R d i → R d j → R d (i.join j)
  widening : ∀ d i j, R d i → R d j → R d (i.widening j)

variable {R : Nat → Interval → Prop}

theorem ranged_of_make (all : Each R bs) (made : make s bs = .ok w) : w.Ranged s R := by
  unfold make at made
  split at made
  · cases made
  · rename_i length
    cases made
    split
    · rfl
    · rename_i full
      exact ⟨rfl, ⟨not_not.1 length, by simpa using full⟩, all⟩

theorem yields_make (all : Each R bs) : Op.Yields (Op.ofExcept (make s bs)) (Ranged s R) :=
  yields_ofExcept fun _ made => ranged_of_make all made

theorem Each.zipWith (closed : ∀ d i j, R d i → R d j → R d (f i j)) (left : Each R xs)
    (right : Each R ys) : Each R (zipWith f xs ys) := by
  intro d i found
  rw [getElem?_zipWith] at found
  split at found
  · rename_i x y first second
    exact Option.some.inj found ▸ closed d x y (left d x first) (right d y second)
  · cases found

theorem Each.set (all : Each R bs) (new : R d i) : Each R (bs.set d i) := by
  intro e j found
  rw [getElem?_set] at found
  split at found
  · rename_i same
    split at found
    · exact Option.some.inj found ▸ same ▸ new
    · cases found
  · exact all e j found

theorem yields_requireSame {op : Op Box} (h : a.space = b.space → Yields op (Ranged s R)) :
    Yields (requireSame operation a b >>= fun _ => op) (Ranged s R) := by
  unfold requireSame
  split
  · exact yields_bind fun _ => h ‹_›
  · exact (yields_fail _).bind fun _ (none : False) => none.elim

theorem getElem?_of_fetch {xs : List α} {x : α} (found : fetch xs d = .ok x) : xs[d]? = some x := by
  unfold fetch at found
  split at found
  · cases found
    assumption
  · cases found

/-! ### Constraints -/

section

variable (closed : Closed k s R)
include closed

section

variable (all : Each R bs)
include all

theorem each_narrowAll {comparison : Comparison} {f : LinearForm} {terms : List (Nat × Coefficient)}
    (run : narrowAll k s comparison f terms bs = .ok (some bs')) : Each R bs' := by
  induction terms generalizing bs with
  | nil =>
    cases run
    exact all
  | cons term terms ih =>
    rw [narrowAll] at run
    dsimp only at run
    split at run
    · exact ih all run
    · obtain ⟨_, -, run⟩ := exists_ok_of_bind run
      obtain ⟨_, found, run⟩ := exists_ok_of_bind run
      split at run
      · cases run
      · refine ih (.set all ?_) run
        exact closed.meet _ _ _ (all _ _ (getElem?_of_fetch found)) (closed.fit _ _)

theorem each_apply {c : LinearConstraint} (run : apply k s c bs = .ok (some bs')) : Each R bs' := by
  unfold apply at run
  split at run
  · cases run
    exact all
  · obtain ⟨_, -, run⟩ := exists_ok_of_bind run
    split at run
    · cases run
    · split at run
      · cases run
        exact all
      · exact each_narrowAll closed all run

theorem each_round (run : round k s cs bs = .ok (some bs')) : Each R bs' := by
  induction cs generalizing bs with
  | nil =>
    cases run
    exact all
  | cons c cs ih =>
    obtain ⟨result, applied, run⟩ := exists_ok_of_bind run
    cases result with
    | none => cases run
    | some left => exact ih (each_apply closed all applied) run

theorem each_rounds {n : Nat} (run : rounds k s cs n bs = .ok (some bs')) : Each R bs' := by
  induction n generalizing bs with
  | zero =>
    cases run
    exact all
  | succ n ih =>
    obtain ⟨result, round, run⟩ := exists_ok_of_bind run
    cases result with
    | none => cases run
    | some left =>
      dsimp only at run
      split at run
      · cases run
        exact all
      · exact ih (each_round closed all round) run

end

theorem yields_propagate (h : v.Ranged s R) (cs : List LinearConstraint) :
    Yields (propagate k v cs) (Ranged s R) := by
  cases v with
  | empty t => exact yields_pure h
  | ranges t bs =>
    obtain ⟨rfl, -, all⟩ := h
    unfold propagate
    refine yields_markInexactIf ?_
    refine yields_bind fun request => ?_
    have narrowed : Yields (.ofExcept (rounds k t cs (roundLimit request.options) bs))
        fun result => ∀ left, result = some left → Each R left :=
      Op.yields_ofExcept fun result run left same => each_rounds closed all (same ▸ run)
    refine narrowed.bind fun result narrowed => ?_
    cases result with
    | none => exact yields_pure rfl
    | some left => exact yields_make (narrowed left rfl)

/-! ### Operations -/

theorem yields_ofIntervals (is : List Interval) : Yields (ofIntervals k s is) (Ranged s R) := by
  unfold ofIntervals
  split
  · exact yields_fail _
  · split
    · exact yields_pure rfl
    · refine yields_make fun d i found => ?_
      rw [getElem?_map, getElem?_zipIdx, Option.map_map, Option.map_eq_some_iff] at found
      obtain ⟨j, -, rfl⟩ := found
      simpa using closed.fit d j

section

variable (ha : a.Ranged s R) (hb : a.space = b.space → b.Ranged s R)
include ha hb

theorem yields_meet : Yields (a.meet b) (Ranged s R) := by
  refine yields_requireSame fun same => ?_
  specialize hb same
  cases a with
  | empty t => exact yields_pure ha
  | ranges t xs =>
    cases b with
    | empty u => exact yields_pure ha.1
    | ranges u ys =>
      obtain ⟨rfl, -, left⟩ := ha
      exact yields_make (.zipWith closed.meet left hb.2.2)

theorem yields_join : Yields (a.join b) (Ranged s R) := by
  refine yields_requireSame fun same => ?_
  specialize hb same
  cases a with
  | empty t => exact yields_pure hb
  | ranges t xs =>
    cases b with
    | empty u => exact yields_pure ha
    | ranges u ys =>
      obtain ⟨rfl, -, left⟩ := ha
      exact yields_markInexactIf (yields_make (.zipWith closed.join left hb.2.2))

theorem yields_widening : Yields (a.widening b) (Ranged s R) := by
  refine yields_requireSame fun same => ?_
  specialize hb same
  cases a with
  | empty t => exact yields_pure hb
  | ranges t xs =>
    cases b with
    | empty u => exact yields_pure ha
    | ranges u ys =>
      obtain ⟨rfl, -, left⟩ := ha
      exact yields_make (.zipWith closed.widening left hb.2.2)

end

theorem yields_forget (h : v.Ranged s R) (dims : List Nat) (project : Bool) :
    Yields (v.forget k dims project) (Ranged s R) := by
  cases v with
  | empty t => exact yields_pure h
  | ranges t bs =>
    obtain ⟨rfl, ⟨length, full⟩, all⟩ := h
    unfold forget
    dsimp only
    split
    · exact yields_fail _
    · refine yields_pure ⟨rfl, ⟨(length_foldl_set dims bs _).trans length, fun i mem => ?_⟩,
        fun d i found => ?_⟩
      · obtain ⟨d, found⟩ := getElem?_of_mem mem
        rcases getElem?_foldl_set found with ⟨kept, -⟩ | ⟨rfl, -⟩
        · exact full i (mem_of_getElem? kept)
        · exact isEmpty_filler project
      · rcases getElem?_foldl_set found with ⟨kept, -⟩ | ⟨rfl, -⟩
        · exact all d i kept
        · exact closed.filler d project

theorem yields_assignEach {value : α → Except Failure Interval} (es : List (Nat × α))
    (all : Each R bs) :
    Yields (assignEach operation k s simple value es bs) fun left => Each R left := by
  induction es generalizing bs with
  | nil => exact yields_pure all
  | cons e es ih =>
    rw [assignEach]
    split
    · exact yields_fail _
    · refine yields_markInexactIf (yields_bind fun i => ?_)
      exact ih (.set all (closed.fit _ _))

theorem yields_assign {value : List Interval → α → Except Failure Interval}
    (h : v.Ranged s R) (dims : List Nat) (es : List α) :
    Yields (assign operation k simple value v dims es) (Ranged s R) := by
  unfold assign
  split
  · exact yields_fail _
  · cases v with
    | empty t => exact yields_pure h
    | ranges t bs =>
      obtain ⟨rfl, -, all⟩ := h
      exact (yields_assignEach closed _ all).bind fun left all => yields_make all

end

/-! ### The kind of the ranges -/

theorem kind_fit (isInt : Bool) (i : Interval) : (fit k isInt i).kind = k := by
  have converted : (i.convert k).kind = k := by
    unfold convert
    split
    · assumption
    · split
      · exact kind_bottom k
      · exact Number.kind_convert _ _ _
  unfold fit
  dsimp only
  split
  · unfold canonical
    split
    · exact converted
    · exact converted
  · exact converted

theorem kind_filler (project : Bool) : (filler k project).kind = k := by
  cases project <;> rfl

theorem closed_kind (k : Kind) (s : Space) : Closed k s fun _ i => i.kind = k where
  fit _ i := kind_fit _ i
  filler _ project := kind_filler project
  meet _ _ _ := kind_meet
  join _ _ _ := kind_join
  widening _ _ _ := kind_widening

theorem HasKind.ranged (h : v.HasKind k) : v.Ranged v.space fun _ i => i.kind = k := by
  cases v with
  | empty t => rfl
  | ranges t bs => exact ⟨rfl, h.formed, fun d i found => h.kinds i (mem_of_getElem? found)⟩

theorem Ranged.hasKind (h : v.Ranged s fun _ i => i.kind = k) : v.HasKind k := by
  cases v with
  | empty t => exact hasKind_empty t
  | ranges t bs =>
    refine ⟨h.2.1, fun i mem => ?_⟩
    obtain ⟨d, found⟩ := getElem?_of_mem mem
    exact h.2.2 d i found

theorem hasKind_of_make (kinds : ∀ i ∈ bs, i.kind = k) (made : make s bs = .ok w) : w.HasKind k :=
  (ranged_of_make (fun _ i found => kinds i (mem_of_getElem? found)) made).hasKind

theorem yields_hasKind_make (kinds : ∀ i ∈ bs, i.kind = k) :
    Op.Yields (Op.ofExcept (make s bs)) (HasKind k) :=
  yields_ofExcept fun _ made => hasKind_of_make kinds made

theorem yields_hasKind_addDimensions (h : v.HasKind k) (c : SpaceChange) (project : Bool) :
    Yields (v.addDimensions k c project) (HasKind k) := by
  cases v with
  | empty s => exact yields_pure (hasKind_empty _)
  | ranges s bs =>
    refine yields_hasKind_make fun i mem => ?_
    have new {n : Nat} (mem : i ∈ replicate n (filler k project)) : i.kind = k := by
      rw [eq_of_mem_replicate mem, kind_filler]
    rcases mem_append.1 mem with inner | last
    · obtain ⟨p, place, inner⟩ := mem_flatMap.1 inner
      rcases mem_append.1 inner with filled | old
      · exact new filled
      · rw [mem_singleton.1 old]
        exact h.kinds _ (fst_mem_of_mem_zipIdx place)
    · exact new last

theorem yields_hasKind_removeDimensions (h : v.HasKind k) (c : SpaceChange) :
    Yields (v.removeDimensions c) (HasKind k) := by
  unfold removeDimensions
  split
  · exact yields_fail _
  · refine yields_bind fun s => ?_
    cases v with
    | empty t => exact yields_pure (hasKind_empty s)
    | ranges t bs =>
      refine yields_hasKind_make fun i mem => ?_
      obtain ⟨p, kept, rfl⟩ := mem_map.1 mem
      exact h.kinds _ (fst_mem_of_mem_zipIdx (mem_of_mem_filter kept))

theorem yields_hasKind_permuteDimensions (h : v.HasKind k) (p : Permutation) :
    Yields (v.permuteDimensions p) (HasKind k) := by
  cases v with
  | empty s => exact yields_pure h
  | ranges s bs =>
    refine yields_ofExcept fun w run => ?_
    obtain ⟨_, permuted, made⟩ := exists_ok_of_bind run
    refine hasKind_of_make (fun i mem => ?_) made
    unfold Permutation.permute at permuted
    split at permuted
    · cases permuted
      obtain ⟨d, -, found⟩ := mem_filterMap.1 mem
      exact h.kinds i (mem_of_getElem? found)
    · cases permuted

theorem keeps_hasKind (k : Kind) (admitted : Construction Box → Prop) :
    (domain k).Keeps admitted (HasKind k) where
  top s := hasKind_top k s
  bottom s := hasKind_empty s
  ofBox s is _ := (yields_ofIntervals (closed_kind k s) is).mono fun _ h => h.hasKind
  meet _ _ ha hb := (yields_meet (closed_kind k _) ha.ranged fun same => same ▸ hb.ranged).mono
    fun _ h => h.hasKind
  meetLinear _ cs h := (yields_propagate (closed_kind k _) h.ranged cs).mono fun _ h => h.hasKind
  join _ _ ha hb := (yields_join (closed_kind k _) ha.ranged fun same => same ▸ hb.ranged).mono
    fun _ h => h.hasKind
  widening _ _ ha hb := (yields_widening (closed_kind k _) ha.ranged fun same =>
    same ▸ hb.ranged).mono fun _ h => h.hasKind
  addDimensions _ c project _ h := yields_hasKind_addDimensions h c project
  removeDimensions _ c _ h := yields_hasKind_removeDimensions h c
  permuteDimensions _ p _ h := yields_hasKind_permuteDimensions h p
  forget _ dims project h := (yields_forget (closed_kind k _) h.ranged dims project).mono
    fun _ h => h.hasKind
  assignForms _ dims forms _ h := (yields_assign (closed_kind k _) h.ranged dims forms).mono
    fun _ h => h.hasKind
  assignTerms _ dims ts _ h := (yields_assign (closed_kind k _) h.ranged dims ts).mono
    fun _ h => h.hasKind
  substituteForms _ _ forms h := Domain.yields_substituteForms
    (yields_hasKind_addDimensions h _ _) (fun _ p _ h => yields_hasKind_permuteDimensions h p)
    (fun _ cs h => (yields_propagate (closed_kind k _) h.ranged cs).mono fun _ h => h.hasKind)
    (fun _ h => yields_hasKind_removeDimensions h _) forms

/-! ### Meets and joins -/

theorem exists_ranges (ha : (ranges s xs).IsFormed) (hb : (ranges s ys).IsFormed)
    (found : (zipWith f xs ys)[d]? = some i) :
    ∃ x y, xs[d]? = some x ∧ ys[d]? = some y ∧ i = f x y ∧ x.isEmpty = false ∧
      y.isEmpty = false := by
  rw [getElem?_zipWith] at found
  split at found
  · rename_i x y left right
    exact ⟨x, y, left, right, (Option.some.inj found).symm, ha.2 x (mem_of_getElem? left),
      hb.2 y (mem_of_getElem? right)⟩
  · cases found

theorem leq_meet_of_within {us : List Interval} {r t : Space} (hu : (ranges s us).IsFormed)
    (ha : (ranges s xs).IsFormed) (hb : (ranges s ys).IsFormed)
    (left : (ranges s us).within (ranges r xs) = true)
    (right : (ranges s us).within (ranges t ys) = true)
    (found : (zipWith Interval.meet xs ys)[d]? = some i) :
    ∃ u, us[d]? = some u ∧ i.isEmpty = false ∧ u.leq i = true := by
  obtain ⟨x, y, first, second, rfl, -⟩ := exists_ranges ha hb found
  have inside : d < us.length := by
    rw [hu.1, ← ha.1]
    exact lt_of_getElem? first
  have place := getElem?_eq_getElem inside
  exact ⟨us[d], place, leq_meet (hu.2 _ (getElem_mem inside))
    (within_ranges.1 left d _ x place first) (within_ranges.1 right d _ y place second)⟩

theorem isMeet_ranges (empty : (bottom k).isEmpty = true) (ha : (ranges s xs).HasKind k)
    (hb : (ranges s ys).HasKind k) (made : make s (zipWith Interval.meet xs ys) = .ok w) :
    (core k).IsMeet (HasKind k) (fun a b => a.within b = true) (ranges s xs) (ranges s ys) w := by
  have kind := (ranged_of_make (.zipWith (closed_kind k s).meet ha.ranged.2.2
    hb.ranged.2.2) made).hasKind
  rw [make, if_neg (not_not.2 (length_zipWith ha.formed hb.formed _)), Except.ok.injEq] at made
  subst made
  split
  · -- no box that has a point is within both if two ranges have nothing in common
    rename_i none
    refine ⟨hasKind_empty s, rfl, rfl, rfl, fun u hu space left right => ?_⟩
    cases u with
    | empty r => rfl
    | ranges r us =>
      obtain rfl : r = s := space
      obtain ⟨i, mem, void⟩ := any_eq_true.1 none
      obtain ⟨d, found⟩ := getElem?_of_mem mem
      obtain ⟨-, -, full, -⟩ := leq_meet_of_within hu.formed ha.formed hb.formed left right found
      simp [full] at void
  · rename_i some
    rw [if_neg some] at kind
    refine ⟨kind, rfl, within_ranges.2 fun d i x found place => ?_,
      within_ranges.2 fun d i y found place => ?_, fun u hu space left right => ?_⟩
    · obtain ⟨x', y, first, second, rfl, full, full'⟩ := exists_ranges ha.formed hb.formed found
      obtain rfl : x' = x := Option.some.inj (first.symm.trans place)
      exact (meet_leq empty (ha.kinds _ (mem_of_getElem? first))
        (hb.kinds _ (mem_of_getElem? second)) full full').1
    · obtain ⟨x, y', first, second, rfl, full, full'⟩ := exists_ranges ha.formed hb.formed found
      obtain rfl : y' = y := Option.some.inj (second.symm.trans place)
      exact (meet_leq empty (ha.kinds _ (mem_of_getElem? first))
        (hb.kinds _ (mem_of_getElem? second)) full full').2
    · cases u with
      | empty r => rfl
      | ranges r us =>
        obtain rfl : r = s := space
        refine within_ranges.2 fun d u i place found => ?_
        obtain ⟨u', place', -, leq⟩ :=
          leq_meet_of_within hu.formed ha.formed hb.formed left right found
        obtain rfl : u' = u := Option.some.inj (place'.symm.trans place)
        exact leq

theorem returns_meet (empty : (Interval.bottom k).isEmpty = true) (ha : a.HasKind k)
    (hb : b.HasKind k) (same : a.space = b.space) :
    Returns request ((core k).meet a b)
      ((core k).IsMeet (HasKind k) (fun a b => a.within b = true) a b) := by
  refine Ensures.returns id (?_ : Ensures request False (a.meet b) _)
  refine (ensures_requireSame _ same).bind fun _ _ => ?_
  cases a with
  | empty s =>
    exact ensures_pure ⟨hasKind_empty s, rfl, rfl, rfl, fun _ _ _ left _ => left⟩
  | ranges s xs =>
    cases b with
    | empty t =>
      refine ensures_pure ⟨hasKind_empty s, rfl, rfl, rfl, fun u _ _ _ right => ?_⟩
      cases u with
      | empty r => rfl
      | ranges r us => exact right
    | ranges t ys =>
      obtain rfl : s = t := same
      obtain ⟨w, made, -⟩ := make_spec (length_zipWith ha.formed hb.formed .meet)
      exact ensures_ofExcept made (isMeet_ranges empty ha hb made)

theorem isJoin_ranges (ha : (ranges s xs).HasKind k) (hb : (ranges s ys).HasKind k) :
    make s (zipWith Interval.join xs ys) = .ok (ranges s (zipWith Interval.join xs ys)) ∧
      (core k).IsJoin (HasKind k) (fun a b => a.within b = true) (ranges s xs) (ranges s ys)
        (ranges s (zipWith Interval.join xs ys)) ∧
      ∀ c, (ranges s xs).within c = true → (ranges s ys).within c = true →
        (ranges s (zipWith Interval.join xs ys)).within c = true := by
  have length := length_zipWith ha.formed hb.formed .join
  have full : ∀ i ∈ zipWith Interval.join xs ys, i.isEmpty = false := by
    intro i mem
    obtain ⟨d, found⟩ := getElem?_of_mem mem
    obtain ⟨x, y, -, -, rfl, full, full'⟩ := exists_ranges ha.formed hb.formed found
    exact (bounds_join full full').1
  have least (c : Box) (left : (ranges s xs).within c = true)
      (right : (ranges s ys).within c = true) :
      (ranges s (zipWith .join xs ys)).within c = true := by
    cases c with
    | empty t => exact left
    | ranges t cs =>
      refine within_ranges.2 fun d i u found place => ?_
      obtain ⟨x, y, first, second, rfl, full, full'⟩ := exists_ranges ha.formed hb.formed found
      exact join_leq full full' (within_ranges.1 left d x u first place)
        (within_ranges.1 right d y u second place)
  refine ⟨make_eq_ranges length full, ⟨⟨⟨length, full⟩, ?_⟩, rfl, ?_, ?_, fun within => ?_⟩, least⟩
  · exact ((ranged_of_make (.zipWith (closed_kind k s).join ha.ranged.2.2 hb.ranged.2.2)
      (make_eq_ranges length full)).hasKind).kinds
  · refine within_ranges.2 fun d x i place found => ?_
    obtain ⟨x', y, first, -, rfl, full, full'⟩ := exists_ranges ha.formed hb.formed found
    obtain rfl : x' = x := Option.some.inj (first.symm.trans place)
    exact (leq_join full full').1
  · refine within_ranges.2 fun d y i place found => ?_
    obtain ⟨x, y', -, second, rfl, full, full'⟩ := exists_ranges ha.formed hb.formed found
    obtain rfl : y' = y := Option.some.inj (second.symm.trans place)
    exact (leq_join full full').2
  · exact least _ (within_self _) within

theorem returns_join (ha : a.HasKind k) (hb : b.HasKind k) (same : a.space = b.space) :
    Returns request ((core k).join a b) fun w =>
      (core k).IsJoin (HasKind k) (fun a b => a.within b = true) a b w ∧
        ∀ c, HasKind k c → c.space = a.space → a.within c = true → b.within c = true →
          w.within c = true := by
  refine Ensures.returns id (?_ : Ensures request False (a.join b) _)
  refine (ensures_requireSame _ same).bind fun _ _ => ?_
  cases a with
  | empty s =>
    exact ensures_pure ⟨⟨hb, same.symm, rfl, within_self b, id⟩, fun _ _ _ _ right => right⟩
  | ranges s xs =>
    cases b with
    | empty t =>
      exact ensures_pure ⟨⟨ha, rfl, within_self _, rfl, fun _ => within_self _⟩,
        fun _ _ _ left _ => left⟩
    | ranges t ys =>
      obtain rfl : s = t := same
      obtain ⟨made, join, least⟩ := isJoin_ranges ha hb
      refine .markInexactIf ?_
      exact ensures_ofExcept made ⟨join, fun c _ _ => least c⟩

theorem isLattice (outward : k.IsOutward) (request query : Request) :
    (core k).IsLattice request query (HasKind k) (fun a b => a.within b = true) where
  refl v _ := within_self v
  isLeq a b _ _ same within := finds_of_within same within query
  top s := ⟨hasKind_top k s, rfl⟩
  le_top v h := by
    cases v with
    | empty s => rfl
    | ranges s bs =>
      refine within_ranges.2 fun d i j found place => ?_
      rw [getElem?_replicate] at place
      split at place
      · obtain rfl := Option.some.inj place
        refine (leq_iff (h.formed.2 i (mem_of_getElem? found)) rfl).2 ?_
        exact ⟨ExtRat.negInf_le _, ExtRat.le_posInf _⟩
      · cases place
  isTop v h within := by
    refine returns_pure ?_
    cases v with
    | empty s => exact within
    | ranges s bs =>
      refine all_eq_true.2 fun i mem => ?_
      obtain ⟨d, inside, rfl⟩ := getElem_of_mem mem
      have place : (replicate s.size (top k))[d]? = some (.top k) := by
        rw [getElem?_replicate, if_pos (h.formed.1 ▸ inside)]
      have leq := within_ranges.1 within d _ _ place (getElem?_eq_getElem inside)
      obtain ⟨lower, upper⟩ := (leq_iff rfl (h.formed.2 _ mem)).1 leq
      have low : bs[d].lo.value = .negInf := le_antisymm lower (ExtRat.negInf_le _)
      have high : bs[d].hi.value = .posInf := le_antisymm (ExtRat.le_posInf _) upper
      simp [Interval.isTop, Number.infinitySign, low, high, ExtRat.infinitySign]
  bottom s := ⟨hasKind_empty s, rfl⟩
  bottom_le _ _ := rfl
  isBottom v _ within := by
    refine returns_pure ?_
    cases v with
    | empty s => rfl
    | ranges s bs => exact within
  meet _ _ ha hb same := returns_meet (isEmpty_bottom outward) ha hb same
  join _ _ ha hb same := (returns_join ha hb same).mono fun _ h => h.1
  join_comm _ _ ha hb same :=
    DomainCore.join_comm_of_least (fun _ _ ha hb same => returns_join ha hb same) ha hb same
  widening a b ha hb same := ((wideningStops k request).above a b ha.formed hb.formed same).mono
    fun w above => ⟨above.2.2.1 query, above.2.2.2 query⟩

end Box

end Enclosure
