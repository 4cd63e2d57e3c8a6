import Enclosure.Domain.Box.Propagation
import Enclosure.Proofs.Constraints
import Enclosure.Proofs.Running

/-!
# The points of boxes

A box has the points of its space that lie within one interval for each dimension.
-/

namespace Enclosure

open List

/-! ### Widening of intervals -/

namespace Interval

variable {a b : Interval}

section

variable (full : a.isEmpty = false) (full' : b.isEmpty = false)
include full full'

theorem lo_widening :
    (a.widening b).lo.value = if b.lo.value < a.lo.value then .negInf else a.lo.value := by
  rw [widening, full, full']
  change (if b.lo.value < a.lo.value then _ else _ : Number).value = _
  split <;> rfl

theorem hi_widening :
    (a.widening b).hi.value = if a.hi.value < b.hi.value then .posInf else a.hi.value := by
  rw [widening, full, full']
  change (if a.hi.value < b.hi.value then _ else _ : Number).value = _
  split <;> rfl

theorem lo_widening_le :
    (a.widening b).lo.value ≤ a.lo.value ∧ (a.widening b).lo.value ≤ b.lo.value := by
  rw [lo_widening full full']
  split
  · exact ⟨ExtRat.negInf_le _, ExtRat.negInf_le _⟩
  · rename_i kept
    exact ⟨le_refl _, not_lt.1 kept⟩

theorem le_hi_widening :
    a.hi.value ≤ (a.widening b).hi.value ∧ b.hi.value ≤ (a.widening b).hi.value := by
  rw [hi_widening full full']
  split
  · exact ⟨ExtRat.le_posInf _, ExtRat.le_posInf _⟩
  · rename_i kept
    exact ⟨le_refl _, not_lt.1 kept⟩

theorem isEmpty_widening : (a.widening b).isEmpty = false :=
  isEmpty_eq_false_iff.2 ((lo_widening_le full full').1.trans
    ((isEmpty_eq_false_iff.1 full).trans (le_hi_widening full full').1))

theorem leq_widening : a.leq (a.widening b) = true ∧ b.leq (a.widening b) = true := by
  have wide := isEmpty_widening full full'
  obtain ⟨lo, lo'⟩ := lo_widening_le full full'
  obtain ⟨hi, hi'⟩ := le_hi_widening full full'
  exact ⟨(leq_iff full wide).2 ⟨lo, hi⟩, (leq_iff full' wide).2 ⟨lo', hi'⟩⟩

end

end Interval

/-! ### Points -/

theorem inBox_zipWith {f : Interval → Interval → Interval} {xs ys : List Interval} {x : List Rat}
    (member : ∀ d i j, xs[d]? = some i → ys[d]? = some j → (f i j).Has (x.getD d 0)) :
    InBox (zipWith f xs ys) x := by
  intro d i found
  rw [getElem?_zipWith] at found
  split at found
  · rename_i left right
    exact Option.some.inj found ▸ member d _ _ left right
  · exact absurd found (by simp)

namespace Box

variable {s : Space} {bs xs ys : List Interval} {x : List Rat} {a b v w : Box}

def IsFormed : Box → Prop
  | empty _ => True
  | ranges s bs => bs.length = s.size ∧ ∀ i ∈ bs, i.isEmpty = false

theorem length_zipWith (ha : (ranges s xs).IsFormed) (hb : (ranges s ys).IsFormed)
    (f : Interval → Interval → Interval) : (List.zipWith f xs ys).length = s.size := by
  rw [List.length_zipWith, ha.1, hb.1, Nat.min_self]

/-- The points of the space whose coordinates lie in the ranges. -/
def HasPoint : Box → List Rat → Prop
  | empty _, _ => False
  | ranges s bs, x => s.IsPoint x ∧ InBox bs x

theorem HasPoint.isPoint (h : v.HasPoint x) : v.space.IsPoint x := by
  cases v with
  | empty s => exact h.elim
  | ranges s bs => exact h.1

theorem InBox.not_any_isEmpty (inBox : InBox bs x) : bs.any (·.isEmpty) = false := by
  rw [any_eq_false]
  intro i mem
  obtain ⟨d, inside, rfl⟩ := getElem_of_mem mem
  simp [(inBox d _ (getElem?_eq_getElem inside)).not_isEmpty]

theorem make_spec (length : bs.length = s.size) :
    ∃ w, make s bs = .ok w ∧ w.IsFormed ∧ w.space = s ∧
      ∀ x, w.HasPoint x ↔ s.IsPoint x ∧ InBox bs x := by
  rw [make, if_neg (not_not.2 length)]
  refine ⟨_, rfl, ?_⟩
  cases empty : bs.any (·.isEmpty) with
  | true =>
    refine ⟨trivial, rfl, fun x => iff_of_false id fun h => ?_⟩
    simp [InBox.not_any_isEmpty h.2] at empty
  | false =>
    refine ⟨⟨length, fun i mem => ?_⟩, rfl, fun x => .rfl⟩
    simpa using any_eq_false.1 empty i mem

theorem make_eq_ranges (length : bs.length = s.size) (full : ∀ i ∈ bs, i.isEmpty = false) :
    make s bs = .ok (ranges s bs) := by
  have none : bs.any (·.isEmpty) = false := any_eq_false.2 fun i mem => by simp [full i mem]
  rw [make, if_neg (not_not.2 length), none]
  rfl

theorem within_ranges {t : Space} :
    (ranges s xs).within (ranges t ys) = true ↔
      ∀ (d : Nat) (i j : Interval), xs[d]? = some i → ys[d]? = some j → i.leq j = true := by
  rw [within, all_eq_true]
  constructor
  · intro h d i j left right
    have found : (zipWith Interval.leq xs ys)[d]? = some (i.leq j) := by
      rw [getElem?_zipWith, left, right]
    exact h _ (mem_of_getElem? found)
  · intro h answer mem
    obtain ⟨d, found⟩ := getElem?_of_mem mem
    rw [getElem?_zipWith] at found
    split at found
    · rename_i left right
      exact Option.some.inj found ▸ h d _ _ left right
    · exact absurd found (by simp)

theorem within_self (v : Box) : v.within v = true := by
  cases v with
  | empty s => rfl
  | ranges s bs =>
    refine within_ranges.2 fun d i j left right => ?_
    obtain rfl : i = j := Option.some.inj (left.symm.trans right)
    exact i.leq_self

theorem HasPoint.of_within (formed : a.IsFormed) (formed' : b.IsFormed) (same : a.space = b.space)
    (within : a.within b = true) (h : a.HasPoint x) : b.HasPoint x := by
  cases a with
  | empty s => exact h.elim
  | ranges s xs =>
    cases b with
    | empty t => exact absurd within Bool.false_ne_true
    | ranges t ys =>
      obtain rfl : s = t := same
      refine ⟨h.1, fun d j right => ?_⟩
      have inside : d < xs.length := by
        have := lt_of_getElem? right
        rwa [formed.1, ← formed'.1]
      have left := getElem?_eq_getElem inside
      exact (h.2 d _ left).of_leq (within_ranges.1 within d _ j left right)

end Box

end Enclosure
