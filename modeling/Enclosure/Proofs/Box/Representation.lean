import Enclosure.Proofs.Box.Exports
import Enclosure.Proofs.Reachability

/-!
# Boxes as they are represented

A box that is reached over an environment has one range for each variable, all of the kind of the
domain.
-/

namespace Enclosure

open List Interval Environment SpaceChange Double

/-! ### Whole bounds -/

theorem Binary.multiple_round_intCast (p : Nat) (r : Rounding) (n : Int) :
    Multiple 0 (round p r n) := by
  have whole : Multiple 0 n := ⟨n, by simp⟩
  unfold round
  split
  · exact ⟨0, by simp⟩
  · rcases le_total 0 (lastPlace p n) with coarse | fine
    · exact .finer (exists_roundAt_eq _ r n) coarse
    · rwa [roundAt_eq_self (whole.finer fine)]

theorem Double.Multiple.den_eq_one {q : Rat} (h : Multiple 0 q) : q.den = 1 := by
  obtain ⟨m, rfl⟩ := h
  rw [zpow_zero, mul_one, Rat.den_intCast]

theorem Double.nearest_round_intCast (r : Rounding) (n : Int) :
    nearest (Binary.round 53 r n) = bounded (Binary.round 53 r n) := by
  obtain ⟨e, multiple, small⟩ := Binary.isFloat_round 53 r n
  have grid : OnGrid (Binary.round 53 r n) := by
    rcases le_total 0 e with _ | _
    · exact ⟨e, by omega, multiple, small⟩
    · refine ⟨0, by omega, Binary.multiple_round_intCast 53 r n, small.trans ?_⟩
      gcongr
      norm_num
  rw [nearest_eq, nearestGrid_eq grid]

namespace ExtRat

variable {u : ExtRat}

theorem isWhole_fin {q : Rat} (integer : q.den = 1) : (fin q).IsWhole :=
  fun _ same => fin.inj same ▸ integer

theorem isWhole_infinity (sign : Int) : (infinity sign).IsWhole := by
  unfold infinity
  split_ifs
  · exact fun _ same => nomatch same
  · exact fun _ same => nomatch same
  · exact isWhole_fin rfl

private theorem isWhole_roundFinite {r : Rounding} (outward : r = .up ∨ r = .down) (n : Int) :
    (roundFinite r n).IsWhole := by
  have greatest : maxFinite.den = 1 ∧ (-maxFinite).den = 1 := by decide +kernel
  have whole := isWhole_fin (Binary.multiple_round_intCast 53 r n).den_eq_one
  rw [roundFinite, nearest_round_intCast, bounded]
  split_ifs
  · rcases outward with rfl | rfl
    · exact isWhole_infinity 1
    · exact isWhole_fin greatest.1
  · rcases outward with rfl | rfl
    · exact isWhole_fin greatest.2
    · exact isWhole_infinity (-1)
  · -- the integer was rounded in the direction already
    dsimp only [order]
    rcases outward with rfl | rfl
    · have above := not_lt.2 (fin_le_fin.2 (Binary.le_round_up 53 n))
      split_ifs <;> exact whole
    · have below := not_lt.2 (fin_le_fin.2 (Binary.round_down_le 53 n))
      rw [if_neg below]
      split_ifs <;> exact whole

theorem IsWhole.round (whole : u.IsWhole) (k : Kind) {r : Rounding} (outward : r = .up ∨ r = .down) :
    (k.round r u).IsWhole := by
  cases u with
  | fin q =>
    obtain ⟨n, rfl⟩ : ∃ n : Int, q = n := ⟨q.num, (Rat.den_eq_one_iff q).1 (whole q rfl) |>.symm⟩
    cases k with
    | double => exact isWhole_roundFinite outward n
    | rational => exact whole
    | binary p => exact isWhole_fin (Binary.multiple_round_intCast p r n).den_eq_one
  | _ => cases k <;> exact whole

end ExtRat

namespace Interval

variable {i j : Interval} {k : Kind}

theorem isWhole_integers (i : Interval) : IsWhole ⟨i.lo.ceil, i.hi.floor⟩ where
  lower := by
    refine .round ?_ _ (.inl rfl)
    cases i.lo.value with
    | fin q => exact ExtRat.isWhole_fin (Rat.den_intCast _)
    | _ => exact fun _ same => nomatch same
  upper := by
    refine .round ?_ _ (.inr rfl)
    cases i.hi.value with
    | fin q => exact ExtRat.isWhole_fin (Rat.den_intCast _)
    | _ => exact fun _ same => nomatch same

theorem isWhole_infinity (k : Kind) (sign : Int) : (Number.infinity k sign).value.IsWhole :=
  ExtRat.isWhole_infinity sign

theorem canonical_eq_self (outward : k.IsOutward) (kind : i.canonical.kind = k)
    (full : i.canonical.isEmpty = false) : i.canonical = i := by
  unfold canonical at kind full ⊢
  split at full
  · rename_i empty
    rw [if_pos empty] at kind
    rw [isEmpty_bottom (kind ▸ outward)] at full
    cases full
  · rename_i some
    rw [if_neg some]

section

variable (hi : i.isEmpty = false → i.IsWhole) (hj : j.isEmpty = false → j.IsWhole)
include hi hj

theorem isWhole_join (full : (i.join j).isEmpty = false) : (i.join j).IsWhole := by
  unfold join at full ⊢
  split_ifs at full ⊢ with left right
  · exact hj full
  · exact hi full
  · have hi := hi (Bool.eq_false_iff.2 left)
    have hj := hj (Bool.eq_false_iff.2 right)
    exact ⟨Number.of_min (P := (·.value.IsWhole)) hi.lower hj.lower,
      Number.of_max (P := (·.value.IsWhole)) hi.upper hj.upper⟩

theorem isWhole_widening (full : (i.widening j).isEmpty = false) : (i.widening j).IsWhole := by
  unfold widening at full ⊢
  split_ifs at full ⊢ with left right
  · exact hj full
  · exact hi full
  all_goals
    obtain ⟨_, _⟩ := hi (Bool.eq_false_iff.2 left)
    constructor <;> first | assumption | exact isWhole_infinity _ _

end

end Interval

namespace Box

variable {k : Kind} {s t : Space} {R R' : Nat → Interval → Prop} {v : Box} {c : SpaceChange}
  {p : Permutation} {e f : Environment}

def IsPlaced (k : Kind) (s : Space) (d : Nat) (i : Interval) : Prop :=
  i.kind = k ∧ (s.isInt d = true → i.isEmpty = false → i.IsWhole)

theorem IsPlaced.move {d e : Nat} {i : Interval} (h : IsPlaced k s d i)
    (same : t.isInt e = true → s.isInt d = true) : IsPlaced k t e i :=
  ⟨h.1, fun int => h.2 (same int)⟩

theorem isPlaced_filler (d : Nat) (project : Bool) : IsPlaced k s d (filler k project) := by
  refine ⟨kind_filler project, fun _ _ => ?_⟩
  cases project with
  | true => exact ⟨ExtRat.isWhole_fin rfl, ExtRat.isWhole_fin rfl⟩
  | false => exact ⟨isWhole_infinity _ _, isWhole_infinity _ _⟩

theorem closed_isPlaced (outward : k.IsOutward) (s : Space) : Closed k s (IsPlaced k s) where
  fit d i := by
    have kind := kind_fit (k := k) (s.isInt d) i
    refine ⟨kind, fun int full => ?_⟩
    unfold fit at kind full ⊢
    dsimp only at kind full ⊢
    rw [int] at kind full ⊢
    split at full
    · rename_i some
      rw [if_pos some] at kind ⊢
      rw [canonical_eq_self outward kind full]
      exact isWhole_integers _
    · rename_i none
      simp [full] at none
  filler := isPlaced_filler
  meet _ i j hi hj := by
    have kind := kind_meet hi.1 hj.1
    refine ⟨kind, fun int full => ?_⟩
    have same : i.meet j = _ := canonical_eq_self outward kind full
    rw [same] at full ⊢
    have order := isEmpty_eq_false_iff.1 full
    rw [Number.value_max, Number.value_min] at order
    obtain ⟨left, right⟩ := le_inf_iff.1 order
    have hi := hi.2 int (isEmpty_eq_false_iff.2 (le_sup_left.trans left))
    have hj := hj.2 int (isEmpty_eq_false_iff.2 (le_sup_right.trans right))
    exact ⟨Number.of_max (P := (·.value.IsWhole)) hi.lower hj.lower,
      Number.of_min (P := (·.value.IsWhole)) hi.upper hj.upper⟩
  join _ _ _ hi hj :=
    ⟨kind_join hi.1 hj.1, fun int => isWhole_join (hi.2 int) (hj.2 int)⟩
  widening _ _ _ hi hj :=
    ⟨kind_widening hi.1 hj.1, fun int => isWhole_widening (hi.2 int) (hj.2 int)⟩

/-! ### Moved ranges -/

theorem Ranged.space_eq (h : v.Ranged s R) : v.space = s := by
  cases v with
  | empty t => exact h
  | ranges t bs => exact h.1

theorem exists_variable {d : Nat} (low : d < e.size) : ∃ x, e.vars[d]? = some x :=
  ⟨_, getElem?_eq_getElem (length_vars ▸ low)⟩

theorem yields_insert {project : Bool} (h : v.Ranged s R) (fits : c.Inserts s)
    (old : ∀ d < s.size, ∀ i, R d i → R' (c.shift d) i)
    (new : ∀ d ∈ c.added, R' d (filler k project)) :
    Op.Yields (v.addDimensions k c project) (Ranged (s.grow c) R') := by
  cases v with
  | empty t => exact Op.yields_pure (congrArg (Space.grow · c) h)
  | ranges t bs =>
    obtain ⟨rfl, ⟨length, -⟩, all⟩ := h
    refine yields_make fun d i found => ?_
    rcases getElem?_insertInto fits.sorted (length ▸ fits.reach) found with
      ⟨d, place, rfl⟩ | ⟨rfl, added⟩
    · exact old d (length ▸ lt_of_getElem? place) i (all d i place)
    · exact new d added

theorem yields_remove (h : v.Ranged s R) (fits : c.Removes s)
    (kept : ∀ j d : Nat, (c.kept s.size)[j]? = some d → ∀ i, R d i → R' j i) :
    Op.Yields (v.removeDimensions c) (Ranged ⟨s.ints - c.ints, s.reals - c.reals⟩ R') := by
  unfold removeDimensions
  split
  · exact Op.yields_fail _
  · rw [h.space_eq, fits.shrink_eq]
    cases v with
    | empty t => exact Op.yields_pure rfl
    | ranges t bs =>
      obtain ⟨rfl, ⟨length, -⟩, all⟩ := h
      refine yields_make fun j i found => ?_
      rw [removeFrom_eq bs (.top .rational), length, getElem?_map, Option.map_eq_some_iff] at found
      obtain ⟨d, place, rfl⟩ := found
      have inside : d < bs.length :=
        length ▸ lt_of_mem_kept (mem_of_getElem? place)
      exact kept j d place _ (all d _ (by simp [inside]))

theorem yields_permute (h : v.Ranged s R) (valid : p.Valid s.size)
    (moved : ∀ d < s.size, ∀ i, R (p.preimage d) i → R' d i) :
    Op.Yields (v.permuteDimensions p) (Ranged s R') := by
  cases v with
  | empty t => exact Op.yields_pure h
  | ranges t bs =>
    obtain ⟨rfl, ⟨length, -⟩, all⟩ := h
    change Op.Yields (.ofExcept (p.permute bs >>= make t)) _
    rw [valid.permute_eq length (.top .rational)]
    refine yields_make fun d i found => ?_
    obtain ⟨inside, rfl⟩ := List.getElem?_eq_some_iff.1 found
    have low : d < t.size := by simpa using inside
    have old : p.preimage d < bs.length := length ▸ valid.preimage_lt low
    refine moved d low _ (all _ _ ?_)
    simp [old]

theorem keepsOver (outward : k.IsOutward) :
    (domain k).KeepsOver fun e => Ranged e.space (IsPlaced k e.space) where
  top e := by
    refine ⟨rfl, (hasKind_top k _).formed, fun d i found => ?_⟩
    rw [eq_of_mem_replicate (mem_of_getElem? found)]
    exact isPlaced_filler d false
  bottom _ := rfl
  ofBox e is := yields_ofIntervals (closed_isPlaced outward _) is
  meet e _ _ ha hb := yields_meet (closed_isPlaced outward _) ha fun _ => hb
  join e _ _ ha hb := yields_join (closed_isPlaced outward _) ha fun _ => hb
  widening e _ _ ha hb := yields_widening (closed_isPlaced outward _) ha fun _ => hb
  meetLinear e _ cs h := yields_propagate (closed_isPlaced outward _) h cs
  forget e _ dims project h := yields_forget (closed_isPlaced outward _) h dims project
  assignForms e _ dims forms h := yields_assign (closed_isPlaced outward _) h dims forms
  assignTerms e _ dims ts h := yields_assign (closed_isPlaced outward _) h dims ts
  substituteForms e v dims forms h := by
    generalize e.space = s at h ⊢
    have space : (domain k).space v = s := h.space_eq
    let grown := s.grow (.append s.size dims.length)
    have size : grown.size = s.size + dims.length := size_grow_append _ _
    have grow : Op.Yields
        ((domain k).addDimensions v (.append ((domain k).space v).size dims.length) false)
        (Ranged grown fun d i => IsPlaced k s d i ∧ (s.size ≤ d → i = .top k)) := by
      rw [space]
      refine yields_insert h (inserts_append s _) (fun d low i placed => ?_)
        fun d _ => ⟨isPlaced_filler d false, fun _ => rfl⟩
      have stays : (append s.size dims.length).shift d = d := by
        simp [shift, append, low]
      rw [stays]
      exact ⟨placed, fun high => absurd low high.not_gt⟩
    refine Domain.yields_substituteForms grow (fun w p run hw => ?_)
      (fun w cs h => yields_propagate (closed_isPlaced outward grown) h cs) (fun w hw => ?_) forms
    · rw [space] at run
      refine yields_permute hw (size ▸ (Permutation.movesOut_of_exchange run).valid) ?_
      rintro d - i ⟨placed, fresh⟩
      refine ⟨placed.1, fun int => ?_⟩
      have low : d < s.size := (of_decide_eq_true int).trans_le (Nat.le_add_right _ _)
      rcases Permutation.preimage_of_exchange run low with same | new
      · exact (same ▸ placed).2 int
      · rw [fresh new]
        exact (isPlaced_filler d false).2 int
    · have left : Op.Yields (w.removeDimensions (dropLast s.size dims.length))
          (Ranged _ (IsPlaced k s)) :=
        yields_remove hw (removes_dropLast s dims.length) fun j d kept i => ?_
      · rw [space]
        rwa [shrink_dropLast] at left
      · rw [size, kept_dropLast] at kept
        obtain ⟨-, rfl⟩ := List.getElem?_eq_some_iff.1 kept
        rw [getElem_range]
        exact id
  insert e f c v he hf within embeds h := by
    rw [← embeds.space]
    refine yields_insert h embeds.fits (fun d low i placed => placed.move fun int => ?_)
      fun d _ => isPlaced_filler d false
    obtain ⟨x, found⟩ := exists_variable low
    rw [embeds.space] at int
    have integer := (hf.isInt_iff (found ▸ embeds.moved d low)).1 int
    exact (he.isInt_iff found).2 (((within.mem_vars_iff hf).1 x integer).1 (mem_of_getElem? found))
  remove e f v he hf within h := by
    obtain ⟨fits, space, -⟩ := removal_spec he hf within
    rw [← space]
    refine yields_remove h fits fun j d kept i placed => placed.move fun int => ?_
    have low : d < e.size := lt_of_mem_kept (mem_of_getElem? kept)
    obtain ⟨x, found⟩ := exists_variable low
    have place : f.vars[j]? = some x := by
      rw [kept_vars he hf within, getElem?_map]
      exact (congrArg _ kept).trans (by simp [found])
    rw [space] at int
    exact (he.isInt_iff found).2 (within.ints ((hf.isInt_iff place).1 int))
  rename r e f p v he renames h := by
    rw [renames.space]
    refine yields_permute h renames.perm fun d low i placed => placed.move fun int => ?_
    obtain ⟨x, found⟩ := exists_variable (renames.perm.preimage_lt low)
    have place := renames.moved _ x found
    rw [renames.perm.image_preimage low] at place
    rw [← renames.space] at int
    have integer := isInt?_eq_true_iff.2 ((renames.valid.isInt_iff place).1 int)
    rw [renames.isInt?_eq he (mem_of_getElem? found)] at integer
    exact (he.isInt_iff found).2 (isInt?_eq_true_iff.1 integer)

/-- Whatever operations lead to a box over an environment, it has one range per variable, of the
kind of the domain. -/
theorem reached_boxes_fit_their_variables {D : Domain Box} {v : AbstractValue Box}
    (made : domainOf k = .ok D) (directed : k ≠ .double)
    (reachable : AbstractValue.Reachable D v) :
    v.value.space = v.env.space ∧ (v.value.bounds k).length = v.env.size ∧
    (∀ i ∈ v.value.bounds k, i.kind = k) ∧
    (v.value.isEmpty = true → ∀ i ∈ v.value.bounds k, i.isEmpty = true) ∧
    (v.value.isEmpty = false → ∀ (d : Nat) i, (v.value.bounds k)[d]? = some i →
      i.isEmpty = false ∧ ∀ x, v.env.vars[d]? = some x → x ∈ v.env.ints → i.IsWhole) := by
  have bits : k ≠ .binary 0 := by
    rintro rfl
    cases made
  rw [domainOf, if_neg bits] at made
  obtain rfl := Except.ok.inj made
  have outward := Kind.isOutward_of_ne directed bits
  obtain ⟨valid, ranged⟩ := reachable.holds (keepsOver outward)
  obtain ⟨m, e, w⟩ := v
  cases w with
  | empty t =>
    obtain rfl : t = e.space := ranged
    refine ⟨rfl, List.length_replicate, fun i mem => ?_, fun _ i mem => ?_,
      fun some => Bool.noConfusion some⟩
    · rw [List.eq_of_mem_replicate mem, Interval.kind_bottom]
    · rw [List.eq_of_mem_replicate mem, Interval.isEmpty_bottom outward]
  | ranges t bs =>
    obtain ⟨space, ⟨length, full⟩, all⟩ := ranged
    refine ⟨space, length.trans (congrArg Space.size space), fun i mem => ?_,
      fun none => Bool.noConfusion none, fun _ d i found => ?_⟩
    · obtain ⟨d, found⟩ := List.getElem?_of_mem mem
      exact (all d i found).1
    · have some := full i (List.mem_of_getElem? found)
      exact ⟨some, fun x place integer =>
        (all d i found).2 ((valid.isInt_iff place).2 integer) some⟩

private def steps (last : Rat) : AbstractValue Box :=
  ⟨0, ⟨["x"], ["y"]⟩, .ranges ⟨1, 1⟩ [.ofExt (.fin 1) (.fin last), .ofExt (.fin 0) (.fin (1 / 3))]⟩

/-- The integers between `1/2` and `7/2` from which another `1/2` does not lead out of them. -/
theorem substituted_box_fits_its_variables :
    AbstractValue.Reachable (domain .rational) (steps 2) ∧
      Interval.IsWhole (.ofExt (.fin 1) (.fin 2)) := by
  have valid : Environment.IsValid ⟨["x"], ["y"]⟩ := ⟨by decide, by decide, by simp⟩
  have start : AbstractValue.Reachable (domain .rational) (steps 3) :=
    .step (m := .start) (.ofBox 0 [("x", .ofExt (.fin (1 / 2)) (.fin (7 / 2))),
      ("y", .ofExt (.fin 0) (.fin (1 / 3)))] valid) (by simp) (by with_unfolding_all rfl)
  have forms : ∀ e ∈ [(⟨⟨["x"], ["y"]⟩, .exact (.rational (.fin (1 / 2))),
      .sparse [(0, .exact (.rational (.fin 1)))]⟩ : Scoped LinearForm)], e.env.IsValid := by
    simpa using valid
  have reachable : AbstractValue.Reachable (domain .rational) (steps 2) :=
    .step (m := .start) (.substituteForms (steps 3) ["x"] forms) (by simpa using start)
      (by with_unfolding_all rfl)
  obtain ⟨-, -, -, -, placed⟩ := reached_boxes_fit_their_variables (k := .rational)
    rfl Kind.noConfusion reachable
  exact ⟨reachable, (placed rfl 0 _ rfl).2 "x" rfl (List.mem_singleton_self "x")⟩

end Box

end Enclosure
