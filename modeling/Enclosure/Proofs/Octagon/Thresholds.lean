import Enclosure.Proofs.Octagon.Separate
import Enclosure.Proofs.Octagon.Soundness
import Mathlib.Tactic.IntervalCases

/-!
# Widening octagons with thresholds

A widening with thresholds meets the widened octagon with the constraints that both operands
satisfy, and that closes it, even if there is no such constraint.
-/

namespace Enclosure

open List ExtRat Op

/-! ### Bounds on one dimension -/

namespace LinearBound

variable {cs : List Rat} {d : Nat} {c : LinearConstraint} {s : Space}

def OnlyAt (d : Nat) (cs : List Rat) : Prop := ∀ e, e ≠ d → cs.getD e 0 = 0

theorem OnlyAt.map_mul (only : OnlyAt d cs) (q : Rat) : OnlyAt d (cs.map (· * q)) := by
  intro e ne
  rw [getD_map_mul, only e ne, Rat.zero_mul]

theorem OnlyAt.terms (only : OnlyAt d cs) : termsOf cs = [] ∨ ∃ q, termsOf cs = [(d, q)] := by
  have here : ∀ t ∈ termsOf cs, t.1 = d := by
    intro t mem
    obtain ⟨place, nonzero⟩ := mem_terms.1 mem
    by_contra ne
    have zero := only t.1 ne
    rw [getD_eq_getElem?_getD, place] at zero
    exact nonzero zero
  have nodup := nodup_terms cs
  generalize termsOf cs = terms at here nodup
  rcases terms with _ | ⟨t, _ | ⟨u, _⟩⟩
  · exact .inl rfl
  · exact .inr ⟨t.2, by rw [← here t (by simp)]⟩
  · -- two terms would be at the same place
    simp [here] at nodup

end LinearBound

/-! ### Lowered bounds -/

namespace Octagon

open BoundMatrix (roundSingle)
open LinearBound (OnlyAt)

variable {request : Request} {o a b v w : Octagon} {s : Space} {x : List Rat}
  {ts : List LinearConstraint} {limits : List NodeBound} {more : List NodeBound}
  {c : LinearConstraint}

def Lowers (limits : List NodeBound) (b : LinearBound) : Prop :=
  ∀ bounds, ∀ c ∈ nodeBounds bounds b, c ∈ limits

theorem Lowers.mono {b : LinearBound} (h : Lowers limits b) (sub : limits ⊆ more) : Lowers more b :=
  fun bounds c mem => sub (h bounds c mem)

def Relaxes (s : Space) (limits : List NodeBound) (c : LinearConstraint) : Prop :=
  ∀ request bounds, Ensures request True (LinearBound.relax c bounds s) fun result =>
    ∀ bs, result = some bs → ∀ b ∈ bs, Lowers limits b

theorem Relaxes.mono (h : Relaxes s limits c) (sub : limits ⊆ more) : Relaxes s more c := by
  intro request bounds
  apply (h request bounds).mono
  intro result lowers bs found b mem
  exact (lowers bs found b mem).mono sub

theorem IsSeparate.entry_close_le (separate : a.IsSeparate) (separate' : b.IsSeparate)
    (same : a.space = b.space) (full : a.close.empty = false)
    (includes : ∀ x, a.HasPoint x → b.HasPoint x) (i : Nat) :
    a.close.matrix.entry i (opposite i) ≤ b.close.matrix.entry i (opposite i) := by
  obtain ⟨box, -⟩ := separate.isBox_close full
  by_cases inside : i < 2 * a.space.size
  · apply box.entry_le_of_holds _ inside
    intro x point holds
    have inA : a.close.HasPoint x := hasPoint_iff.2 ⟨full, (space_close a).symm ▸ point, holds⟩
    have inB := includes x ((hasPoint_close separate.square).1 inA)
    exact ((hasPoint_close separate'.square).2 inB).holds
  · have outside : ¬ (i < 2 * b.close.space.size ∧ opposite i < 2 * b.close.space.size) := by
      rw [space_close, ← same]
      exact fun both => inside both.1
    rw [BoundMatrix.IsSquare.entry_of_not_lt separate'.square.close outside]
    exact le_posInf _

theorem IsSeparate.hasPoint_congr (separate : a.IsSeparate) (separate' : b.IsSeparate)
    (same : a.space = b.space) (full : a.close.empty = false) (full' : b.close.empty = false)
    (entries : ∀ i < 2 * a.space.size,
      a.close.matrix.entry i (opposite i) = b.close.matrix.entry i (opposite i)) :
    a.HasPoint x ↔ b.HasPoint x := by
  obtain ⟨box, -⟩ := separate.isBox_close full
  obtain ⟨box', -⟩ := separate'.isBox_close full'
  rw [← hasPoint_close separate.square, ← hasPoint_close separate'.square, hasPoint_iff,
    hasPoint_iff, full, full', space_close, space_close, same, box.holds_iff, box'.holds_iff]
  refine and_congr_right fun _ => and_congr_right fun _ => forall_congr' fun i => ?_
  by_cases inside : i < 2 * a.space.size
  · rw [entries i inside]
  · have outside : ¬ (i < 2 * b.space.size ∧ opposite i < 2 * b.space.size) := by
      rw [← same]
      exact fun both => inside both.1
    rw [box'.square.entry_of_not_lt outside, box.square.entry_of_not_lt fun both => inside both.1]

/-- Two dimensions that differ by one at most and are bounded by `u` and `v`, with the bound on
their sum that follows. -/
def strip (u v : ExtRat) : BoundMatrix :=
  ⟨[[.zero, u.twice, .fin 1, u.boundSum v], [.posInf, .zero, .posInf, .fin 1],
    [.fin 1, u.boundSum v, .zero, v.twice], [.posInf, .fin 1, .posInf, .zero]]⟩

theorem isSquare_strip (u v : ExtRat) : (strip u v).IsSquare 4 := ⟨rfl, by simp [strip]⟩

theorem isRegular_strip {u v : ExtRat} (left : u ≠ .negInf) (right : v ≠ .negInf) :
    (strip u v).IsRegular 2 := by
  have sum := boundSum_ne_negInf left right
  have twice := twice_ne_negInf left
  have twice' := twice_ne_negInf right
  refine ⟨isSquare_strip u v, fun a row b column => ?_, fun a row => ?_, fun a row b column => ?_⟩
  · interval_cases a <;> interval_cases b <;> rfl
  · interval_cases a <;> rfl
  · interval_cases a <;> interval_cases b <;> first | assumption | exact nofun

theorem holds_strip {u v : ExtRat} : (strip u v).Holds x ↔
    (.fin (x.getD 0 0) ≤ u ∧ .fin (x.getD 1 0) ≤ v) ∧
      x.getD 0 0 - x.getD 1 0 ≤ 1 ∧ x.getD 1 0 - x.getD 0 0 ≤ 1 := by
  have twice {q : Rat} {w : ExtRat} : .fin (q - -q) ≤ w.twice ↔ .fin q ≤ w := by
    rw [fin_le_twice, sub_neg_eq_add, add_self_div_two]
  constructor
  · intro holds
    exact ⟨⟨twice.1 (holds 0 1), twice.1 (holds 2 3)⟩, fin_le_fin.1 (holds 0 2),
      fin_le_fin.1 (holds 2 0)⟩
  · rintro ⟨⟨first, second⟩, less, less'⟩ a b
    have sum : .fin (x.getD 0 0 - -x.getD 1 0) ≤ u.boundSum v := by
      apply fin_le_iff_forall.2
      intro q le
      obtain ⟨p, left, right⟩ := boundSum_le_fin.1 le
      linarith [fin_le_fin.1 (first.trans left), fin_le_fin.1 (second.trans right)]
    have swapped : x.getD 1 0 - -x.getD 0 0 = x.getD 0 0 - -x.getD 1 0 := by ring
    have negated : -x.getD 0 0 - -x.getD 1 0 = x.getD 1 0 - x.getD 0 0 := by ring
    have negated' : -x.getD 1 0 - -x.getD 0 0 = x.getD 0 0 - x.getD 1 0 := by ring
    have zero (q : Rat) : .fin (q - q) ≤ zero := fin_le_fin.2 (sub_self q).le
    by_cases inside : a < 4 ∧ b < 4
    · obtain ⟨_, _⟩ := inside
      -- an entry of the upper part, its mirror image, a zero or no bound at all
      interval_cases a <;> interval_cases b <;>
        first
        | exact zero _
        | exact le_posInf _
        | exact twice.2 ‹_›
        | exact fin_le_fin.2 ‹_›
        | exact sum
        | exact (congrArg fin swapped).le.trans sum
        | exact fin_le_fin.2 (negated.le.trans less')
        | exact fin_le_fin.2 (negated'.le.trans less)
    · rw [(isSquare_strip u v).entry_of_not_lt inside]
      exact le_posInf _

theorem isStronglyClosed_strip {p q : Rat} (left : p ≤ q + 1) (right : q ≤ p + 1) :
    (strip (.fin p) (.fin q)).IsStronglyClosed 2 := by
  have regular : (strip (.fin p) (.fin q)).IsRegular 2 := isRegular_strip nofun nofun
  refine ⟨⟨regular, fun a row b column c other => ?_⟩, fun a row b column => ?_⟩
  · interval_cases a <;> interval_cases b <;> interval_cases c <;>
      simp [strip, BoundMatrix.entry, boundSum, add?, twice, mul, zero] <;> linarith
  · apply le_iff_forall_fin.2
    intro r le
    rw [half_le_fin] at le
    revert le
    interval_cases a <;> interval_cases b <;>
      simp [strip, BoundMatrix.entry, boundSum, add?, twice, mul, opposite] <;> intros <;> linarith

theorem close?_strip {u v : ExtRat} {p q : Rat} (left : u ≠ .negInf) (right : v ≠ .negInf)
    (near : p ≤ q + 1) (near' : q ≤ p + 1)
    (same : ∀ y z : Rat, y - z ≤ 1 → z - y ≤ 1 → ((.fin y ≤ u ∧ .fin z ≤ v) ↔ y ≤ p ∧ z ≤ q)) :
    (strip u v).close? ⟨0, 2⟩ = some (strip (.fin p) (.fin q)) := by
  apply (isRegular_strip left right).close?_of_holds rfl (isStronglyClosed_strip near near')
  intro x _
  rw [holds_strip, holds_strip]
  exact and_congr_left fun ⟨less, less'⟩ => same _ _ less less'

theorem keptEntries_strip {p q p' q' : Rat} (le : p ≤ p') (le' : q ≤ q') :
    keptEntries (strip (.fin p) (.fin q)) (strip (.fin p') (.fin q')) =
      strip (if p' ≤ p then .fin p else .posInf) (if q' ≤ q then .fin q else .posInf) := by
  apply ((isSquare_strip _ _).mapEntries _).ext (isSquare_strip _ _)
  intro a row b column
  rw [(isSquare_strip _ _).entry_mapEntries fun outside => absurd ⟨row, column⟩ outside]
  -- the sum of both bounds stays only if each of them does
  have sum : p' + q' ≤ p + q ↔ p' ≤ p ∧ q' ≤ q := by
    constructor
    · intro less
      exact ⟨by linarith, by linarith⟩
    · exact fun ⟨less, less'⟩ => add_le_add less less'
  have twice (r : Rat) : (fin r).twice = .fin (r * 2) := rfl
  have missing : posInf.twice = .posInf := rfl
  by_cases first : p' ≤ p <;> by_cases second : q' ≤ q <;>
    interval_cases a <;> interval_cases b <;>
      simp [strip, BoundMatrix.entry, boundSum, add?, twice, missing, first, second, sum]

def Rises (r s : Rat × Rat) : Prop :=
  r.2 = r.1 + 1 ∧ s = (r.2 + 1, r.2) ∨ r.1 = r.2 + 1 ∧ s = (r.1, r.1 + 1)

theorem Rises.close? {r s : Rat × Rat} (rises : Rises r s) :
    (keptEntries (strip (.fin r.1) (.fin r.2)) (strip (.fin s.1) (.fin s.2))).close? ⟨0, 2⟩ =
      some (strip (.fin s.1) (.fin s.2)) := by
  rcases rises with ⟨_, rfl⟩ | ⟨_, rfl⟩
  · rw [keptEntries_strip (by linarith) (le_refl _), if_neg (by linarith), if_pos (le_refl _)]
    apply close?_strip (by simp) (by simp) (le_refl _) (by linarith)
    intro y z less _
    constructor
    · exact fun ⟨_, le⟩ => ⟨by linarith [fin_le_fin.1 le], le⟩
    · exact fun ⟨_, le⟩ => ⟨le_posInf _, le⟩
  · rw [keptEntries_strip (le_refl _) (by linarith), if_pos (le_refl _), if_neg (by linarith)]
    apply close?_strip (by simp) (by simp) (by linarith) (le_refl _)
    intro y z _ less
    constructor
    · exact fun ⟨le, _⟩ => ⟨le, by linarith [fin_le_fin.1 le]⟩
    · exact fun ⟨le, _⟩ => ⟨le, le_posInf _⟩

end Octagon

end Enclosure
