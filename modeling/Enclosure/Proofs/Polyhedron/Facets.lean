import Enclosure.Proofs.Rows
import Enclosure.Proofs.Spaces
import Mathlib.LinearAlgebra.FiniteDimensional.Basic
import Mathlib.RingTheory.Artinian.Module

/-!
# Facets of polyhedra

The solutions of a system of loose rows are described in two parts.
-/

namespace Enclosure

open List Row

variable {n : Nat} {x y z : List Rat} {t : Rat} {r c : Row}

/-! ### Lines -/

def onLine (x y : List Rat) (t : Rat) : List Rat :=
  zipWith (fun u v => u * (1 - t) + v * t) x y

theorem length_onLine (hx : x.length = n) (hy : y.length = n) (t : Rat) :
    (onLine x y t).length = n := by
  rw [onLine, length_zipWith, hx, hy, Nat.min_self]

namespace Row

def excess (r : Row) (x : List Rat) : Rat := dot r.coeffs x - r.bound

theorem holdsAt_iff_excess (loose : r.strict = false) : r.holdsAt x = true ↔ r.excess x ≤ 0 := by
  rw [holdsAt_iff, loose, excess, sub_nonpos]
  rfl

theorem excess_onLine (same : x.length = y.length) :
    r.excess (onLine x y t) = r.excess x * (1 - t) + r.excess y * t := by
  rw [excess, excess, excess, onLine, dot_comm, dot_zipWith same, dot_comm x, dot_comm y]
  ring

theorem excess_divide (q : Rat) : (r.divide q).excess x = r.excess x / q := by
  rw [excess, excess, divide, dot_map_div, sub_div]

theorem excess_onLine_nonpos (same : x.length = y.length) (nonneg : 0 ≤ t) (le : t ≤ 1)
    (hx : r.excess x ≤ 0) (hy : r.excess y ≤ 0) : r.excess (onLine x y t) ≤ 0 := by
  rw [excess_onLine same]
  have first := mul_nonpos_of_nonpos_of_nonneg hx (sub_nonneg.2 le)
  have second := mul_nonpos_of_nonpos_of_nonneg hy nonneg
  linarith

theorem exists_inside_onLine (same : x.length = y.length) (inside : r.excess x < 0) :
    ∃ e, 0 < e ∧ ∀ t, 0 < t → t ≤ e → r.excess (onLine x y t) < 0 := by
  have room : 0 < |r.excess y - r.excess x| + 1 := by positivity
  refine ⟨-r.excess x / (|r.excess y - r.excess x| + 1), div_pos (by linarith) room, ?_⟩
  intro t pos le
  have steps : t * (|r.excess y - r.excess x| + 1) ≤ -r.excess x := (le_div_iff₀ room).1 le
  have change : t * (r.excess y - r.excess x) ≤ t * |r.excess y - r.excess x| :=
    mul_le_mul_of_nonneg_left (le_abs_self _) pos.le
  rw [excess_onLine same]
  linarith

end Row

namespace Rows

variable {rows S : List Row} {P Q : Set (List Rat)} {p : List Rat}

theorem exists_step (S : List Row) (same : x.length = y.length) :
    ∃ e, 0 < e ∧ e ≤ 1 ∧ ∀ r ∈ S, r.excess x < 0 → r.excess (onLine x y e) < 0 := by
  suffices small : ∃ e, 0 < e ∧ ∀ t, 0 < t → t ≤ e →
      ∀ r ∈ S, r.excess x < 0 → r.excess (onLine x y t) < 0 by
    obtain ⟨e, pos, inside⟩ := small
    exact ⟨min e 1, lt_min pos one_pos, min_le_right _ _,
      inside _ (lt_min pos one_pos) (min_le_left _ _)⟩
  induction S with
  | nil => exact ⟨1, one_pos, by simp⟩
  | cons r S ih =>
    obtain ⟨e, pos, rest⟩ := ih
    by_cases inside : r.excess x < 0
    · obtain ⟨e', pos', first⟩ := exists_inside_onLine same inside
      refine ⟨min e e', lt_min pos pos', fun t positive le => ?_⟩
      rw [forall_mem_cons]
      exact ⟨fun _ => first t positive (le.trans (min_le_right _ _)),
        rest t positive (le.trans (min_le_left _ _))⟩
    · refine ⟨e, pos, fun t positive le => ?_⟩
      rw [forall_mem_cons]
      exact ⟨fun h => absurd h inside, rest t positive le⟩

/-! ### Systems for a set -/

structure Describes (n : Nat) (rows : List Row) (P : Set (List Rat)) : Prop where
  width : ∀ r ∈ rows, r.coeffs.length = n
  loose : ∀ r ∈ rows, r.strict = false
  mem_iff : ∀ x, x ∈ P ↔ x.length = n ∧ Solves rows x

def Irredundant (n : Nat) (rows : List Row) : Prop :=
  ∀ before r after, rows = before ++ r :: after →
    ∃ x, x.length = n ∧ Solves (before ++ after) x ∧ ¬ r.holdsAt x = true

def StandsFor (n : Nat) (rows : List Row) (c : Row) : Prop :=
  ∃ before r after, rows = before ++ r :: after ∧
    ∀ x, x.length = n → Solves (before ++ after) x → c.excess x ≤ 0 → r.excess x ≤ 0

theorem standsFor_of_mem (mem : r ∈ rows) : StandsFor n rows r := by
  obtain ⟨before, after, rfl⟩ := append_of_mem mem
  exact ⟨before, r, after, rfl, fun _ _ _ le => le⟩

theorem StandsFor.divide (h : StandsFor n rows c) {k : Rat} (pos : 0 < k) :
    StandsFor n rows (c.divide k) := by
  obtain ⟨before, r, after, same, implies⟩ := h
  refine ⟨before, r, after, same, fun x length solves le => implies x length solves ?_⟩
  rw [excess_divide] at le
  exact nonpos_of_mul_nonpos_left (by simpa [div_eq_mul_inv] using le) (inv_pos.2 pos)

def IsEquation (n : Nat) (P : Set (List Rat)) (r : Row) : Prop :=
  r.coeffs.length = n ∧ ∀ x ∈ P, r.excess x = 0

def hull (n : Nat) (P : Set (List Rat)) : Set (List Rat) :=
  {x | x.length = n ∧ ∀ r, IsEquation n P r → r.excess x = 0}

def side (n : Nat) (P : Set (List Rat)) (c : Row) : Set (List Rat) :=
  {x | x ∈ hull n P ∧ c.excess x ≤ 0}

structure IsFacetAt (n : Nat) (P : Set (List Rat)) (c : Row) (p : List Rat) : Prop where
  width : c.coeffs.length = n
  valid : ∀ x ∈ P, c.excess x ≤ 0
  proper : ∃ z ∈ P, c.excess z < 0
  mem : p ∈ P
  border : c.excess p = 0
  around : ∀ x ∈ side n P c, ∃ t, 0 < t ∧ onLine p x t ∈ P

def facets (n : Nat) (P : Set (List Rat)) : Set (Set (List Rat)) :=
  {H | ∃ c p, IsFacetAt n P c p ∧ H = side n P c}

theorem hull_congr (same : ∀ r, IsEquation n P r ↔ IsEquation n Q r) : hull n P = hull n Q := by
  simp only [hull, same]

theorem onLine_mem_hull (hx : x ∈ hull n P) (hy : y ∈ hull n P) (t : Rat) :
    onLine x y t ∈ hull n P := by
  refine ⟨length_onLine hx.1 hy.1 t, fun r equation => ?_⟩
  rw [excess_onLine (hx.1.trans hy.1.symm), hx.2 r equation, hy.2 r equation]
  ring

theorem exists_inside (width : c.coeffs.length = n) (valid : ∀ x ∈ P, c.excess x ≤ 0)
    (other : ¬ IsEquation n P c) : ∃ z ∈ P, c.excess z < 0 := by
  by_contra none
  push Not at none
  exact other ⟨width, fun x mem => le_antisymm (valid x mem) (none x mem)⟩

namespace Describes

section

variable (system : Describes n rows P)
include system

theorem length (mem : x ∈ P) : x.length = n :=
  ((system.mem_iff x).1 mem).1

theorem mem_iff_excess : x ∈ P ↔ x.length = n ∧ ∀ r ∈ rows, r.excess x ≤ 0 := by
  rw [system.mem_iff]
  refine and_congr_right fun _ => forall₂_congr fun r mem => ?_
  exact holdsAt_iff_excess (system.loose r mem)

theorem valid (mem : r ∈ rows) : ∀ x ∈ P, r.excess x ≤ 0 :=
  fun _ inside => (system.mem_iff_excess.1 inside).2 r mem

theorem subset_hull : P ⊆ hull n P :=
  fun x mem => ⟨system.length mem, fun _ equation => equation.2 x mem⟩

theorem convex (hx : x ∈ P) (hy : y ∈ P) (nonneg : 0 ≤ t) (le : t ≤ 1) : onLine x y t ∈ P := by
  rw [system.mem_iff_excess] at hx hy ⊢
  refine ⟨length_onLine hx.1 hy.1 t, fun r mem => ?_⟩
  exact excess_onLine_nonpos (hx.1.trans hy.1.symm) nonneg le (hx.2 r mem) (hy.2 r mem)

theorem exists_interior (nonempty : P.Nonempty) (S : List Row)
    (valid : ∀ r ∈ S, ∀ x ∈ P, r.excess x ≤ 0) :
    ∃ z ∈ P, ∀ r ∈ S, (∃ x ∈ P, r.excess x < 0) → r.excess z < 0 := by
  induction S with
  | nil =>
    obtain ⟨z, mem⟩ := nonempty
    exact ⟨z, mem, by simp⟩
  | cons r S ih =>
    rw [forall_mem_cons] at valid
    obtain ⟨z, inP, inside⟩ := ih valid.2
    by_cases proper : ∃ x ∈ P, r.excess x < 0
    · -- half way to a vector inside the new row, all others are still inside
      obtain ⟨x, inP', _⟩ := proper
      have same : z.length = x.length := (system.length inP).trans (system.length inP').symm
      refine ⟨onLine z x (1 / 2), system.convex inP inP' (by norm_num) (by norm_num), ?_⟩
      rw [forall_mem_cons]
      constructor
      · intro _
        rw [excess_onLine same]
        linarith [valid.1 z inP]
      · intro s mem proper
        rw [excess_onLine same]
        linarith [inside s mem proper, valid.2 s mem x inP']
    · refine ⟨z, inP, ?_⟩
      rw [forall_mem_cons]
      exact ⟨fun h => absurd h proper, inside⟩

theorem exists_onLine (hp : p ∈ P) (hx : x ∈ hull n P) (S : List Row)
    (width : ∀ r ∈ S, r.coeffs.length = n) (valid : ∀ r ∈ S, ∀ y ∈ P, r.excess y ≤ 0)
    (room : ∀ r ∈ S, (∃ y ∈ P, r.excess y < 0) → r.excess p < 0 ∨ r.excess x ≤ 0) :
    ∃ t, 0 < t ∧ ∀ r ∈ S, r.excess (onLine p x t) ≤ 0 := by
  have same : p.length = x.length := (system.length hp).trans hx.1.symm
  obtain ⟨t, pos, le, inside⟩ := exists_step S same
  refine ⟨t, pos, fun r mem => ?_⟩
  by_cases proper : ∃ y ∈ P, r.excess y < 0
  · rcases room r mem proper with less | satisfied
    · exact (inside r mem less).le
    · exact excess_onLine_nonpos same pos.le le (valid r mem p hp) satisfied
  · -- an equation of the set holds all along the line
    have equation : IsEquation n P r := by
      by_contra other
      exact proper (exists_inside (width r mem) (valid r mem) other)
    rw [excess_onLine same, equation.2 p hp, hx.2 r equation]
    linarith

/-! ### Facets and rows -/

private theorem exists_border_row (facet : IsFacetAt n P c p) :
    ∃ r ∈ rows, (∃ z ∈ P, r.excess z < 0) ∧ r.excess p = 0 := by
  by_contra none
  push Not at none
  obtain ⟨z, inP, _⟩ := facet.proper
  have same : p.length = z.length := (system.length facet.mem).trans (system.length inP).symm
  have across : onLine p z (-1) ∈ hull n P :=
    onLine_mem_hull (system.subset_hull facet.mem) (system.subset_hull inP) _
  obtain ⟨t, _, holds⟩ := system.exists_onLine facet.mem across rows system.width
    (fun r mem => system.valid mem) fun r mem proper =>
      .inl (lt_of_le_of_ne (system.valid mem p facet.mem) (none r mem proper))
  have inSet : onLine p (onLine p z (-1)) t ∈ P := by
    rw [system.mem_iff_excess]
    exact ⟨length_onLine (system.length facet.mem) across.1 t, holds⟩
  have passed := facet.valid _ inSet
  rw [excess_onLine ((system.length facet.mem).trans across.1.symm),
    excess_onLine same, facet.border] at passed
  nlinarith

theorem exists_row_of_facet (facet : IsFacetAt n P c p) :
    ∃ r ∈ rows, (∃ z ∈ P, r.excess z < 0) ∧ side n P r = side n P c := by
  obtain ⟨r, mem, proper, border⟩ := system.exists_border_row facet
  have pInHull := system.subset_hull facet.mem
  have forward (x : List Rat) (hx : x ∈ hull n P) (le : c.excess x ≤ 0) : r.excess x ≤ 0 := by
    obtain ⟨t, _, inP⟩ := facet.around x ⟨hx, le⟩
    have holds := system.valid mem _ inP
    rw [excess_onLine (pInHull.1.trans hx.1.symm)] at holds
    nlinarith
  refine ⟨r, mem, proper, ?_⟩
  ext x
  refine and_congr_right fun hx => ⟨fun le => ?_, forward x hx⟩
  by_contra beyond
  push Not at beyond
  obtain ⟨z, inP, _⟩ := proper
  have zInHull := system.subset_hull inP
  -- the row is constant on the line from `p` to `x`, since it holds on the far side of `p`
  have back := forward _ (onLine_mem_hull pInHull hx (-1)) (by
    rw [excess_onLine (pInHull.1.trans hx.1.symm), facet.border]
    linarith)
  rw [excess_onLine (pInHull.1.trans hx.1.symm)] at back
  have flat : r.excess x = 0 := by linarith
  -- so far back on this line, and half way from there to the other side of the border
  have u := onLine_mem_hull pInHull hx (c.excess z / c.excess x)
  have v := onLine_mem_hull pInHull zInHull (-1)
  have far := forward _ (onLine_mem_hull u v (1 / 2)) (by
    rw [excess_onLine (u.1.trans v.1.symm), excess_onLine (pInHull.1.trans hx.1.symm),
      excess_onLine (pInHull.1.trans zInHull.1.symm), facet.border,
      mul_div_cancel₀ _ beyond.ne']
    linarith)
  rw [excess_onLine (u.1.trans v.1.symm), excess_onLine (pInHull.1.trans hx.1.symm),
    excess_onLine (pInHull.1.trans zInHull.1.symm), border, flat] at far
  linarith

theorem finite_facets : (facets n P).Finite := by
  refine (Set.Finite.image (side n P) (finite_toSet rows)).subset ?_
  rintro H ⟨c, p, facet, rfl⟩
  obtain ⟨r, mem, -, same⟩ := system.exists_row_of_facet facet
  exact ⟨r, mem, same⟩

end

section Crossing

variable {before after : List Row}

private theorem mem_of_mem_others {s : Row} (mem : s ∈ before ++ after) :
    s ∈ before ++ r :: after := by
  simp only [mem_append] at mem ⊢
  tauto

section

variable (system : Describes n (before ++ r :: after) P)
include system

private theorem solves_others_iff :
    Solves (before ++ after) x ↔ ∀ s ∈ before ++ after, s.excess x ≤ 0 :=
  forall₂_congr fun s mem => holdsAt_iff_excess (system.loose s (mem_of_mem_others mem))

private theorem mem_iff_others :
    x ∈ P ↔ x.length = n ∧ Solves (before ++ after) x ∧ r.excess x ≤ 0 := by
  rw [system.mem_iff, solves_append, solves_append, solves_cons,
    holdsAt_iff_excess (system.loose r (by simp))]
  tauto

private theorem solves_others_onLine (same : x.length = y.length) (hx : Solves (before ++ after) x)
    (hy : Solves (before ++ after) y) (nonneg : 0 ≤ t) (le : t ≤ 1) :
    Solves (before ++ after) (onLine x y t) := by
  rw [system.solves_others_iff] at hx hy ⊢
  intro s mem
  exact excess_onLine_nonpos same nonneg le (hx s mem) (hy s mem)

private theorem excess_nonneg_of_stands
    (stands : ∀ x, x.length = n → Solves (before ++ after) x → c.excess x ≤ 0 → r.excess x ≤ 0)
    (hx : x.length = n) (hy : y.length = n) (rest : Solves (before ++ after) x)
    (rest' : Solves (before ++ after) y) (beyond : 0 < r.excess y) (border : r.excess x = 0) :
    0 ≤ c.excess x := by
  by_contra inside
  obtain ⟨t, pos, le, step⟩ := exists_step [c] (hx.trans hy.symm)
  have implied := stands _ (length_onLine hx hy t)
    (system.solves_others_onLine (hx.trans hy.symm) rest rest' pos.le le)
    (step c (by simp) (not_le.1 inside)).le
  rw [excess_onLine (hx.trans hy.symm)] at implied
  nlinarith

end

section

variable (system : Describes n (before ++ r :: after) P)
  (needed : ∃ y, y.length = n ∧ Solves (before ++ after) y ∧ ¬ r.holdsAt y = true)
  (valid : ∀ x ∈ P, c.excess x ≤ 0) (proper : ∃ x ∈ P, c.excess x < 0)
  (stands : ∀ x, x.length = n → Solves (before ++ after) x → c.excess x ≤ 0 → r.excess x ≤ 0)
include system needed valid proper stands

private theorem exists_crossing :
    (∃ z ∈ P, r.excess z < 0) ∧ ∃ p ∈ P, r.excess p = 0 ∧ c.excess p = 0 ∧
      ∀ s ∈ before ++ after, (∃ x ∈ P, s.excess x < 0) → s.excess p < 0 := by
  have mem : r ∈ before ++ r :: after := by simp
  -- `z` is inside all rows, and `y` is beyond `r` only
  obtain ⟨z, zInP, inside⟩ := system.exists_interior ⟨_, proper.choose_spec.1⟩
    (c :: (before ++ r :: after)) (by
      rw [forall_mem_cons]
      exact ⟨valid, fun s inRows => system.valid inRows⟩)
  rw [forall_mem_cons] at inside
  obtain ⟨y, yLength, ySolves, fails⟩ := needed
  rw [holdsAt_iff_excess (system.loose r mem), not_le] at fails
  obtain ⟨zLength, zSolves, -⟩ := system.mem_iff_others.1 zInP
  have same : z.length = y.length := zLength.trans yLength.symm
  have zInside : r.excess z < 0 := by
    refine lt_of_le_of_ne (system.valid mem z zInP) fun border => ?_
    exact (inside.1 proper).not_ge
      (system.excess_nonneg_of_stands stands zLength yLength zSolves ySolves fails border)
  -- `p` is where the way from `z` to `y` crosses the border of `r`
  have gap : 0 < r.excess y - r.excess z := by linarith
  obtain ⟨t, pos, less, crossing⟩ : ∃ t, 0 < t ∧ t < 1 ∧
      r.excess z * (1 - t) + r.excess y * t = 0 := by
    refine ⟨-r.excess z / (r.excess y - r.excess z), div_pos (by linarith) gap, ?_, ?_⟩
    · rw [div_lt_one gap]
      linarith
    · field_simp
      ring
  have pLength := length_onLine zLength yLength t
  have border : r.excess (onLine z y t) = 0 := (excess_onLine same).trans crossing
  have pSolves := system.solves_others_onLine same zSolves ySolves pos.le less.le
  have pInP : onLine z y t ∈ P := system.mem_iff_others.2 ⟨pLength, pSolves, border.le⟩
  refine ⟨⟨z, zInP, zInside⟩, _, pInP, border, le_antisymm (valid _ pInP) ?_, ?_⟩
  · exact system.excess_nonneg_of_stands stands pLength yLength pSolves ySolves fails border
  · intro s inOthers proper
    have first := inside.2 s (mem_of_mem_others inOthers) proper
    have second := mul_nonpos_of_nonpos_of_nonneg
      (system.solves_others_iff.1 ySolves s inOthers) pos.le
    rw [excess_onLine same]
    nlinarith

theorem side_eq_of_standsFor : ∃ p, IsFacetAt n P r p ∧ side n P c = side n P r := by
  have mem : r ∈ before ++ r :: after := by simp
  obtain ⟨inside, p, pInP, border, border', room⟩ :=
    system.exists_crossing needed valid proper stands
  have pLength := system.length pInP
  have scaled {s : Row} (onBorder : s.excess p = 0) {x : List Rat} {t : Rat}
      (hx : x ∈ hull n P) : s.excess (onLine p x t) = s.excess x * t := by
    rw [excess_onLine (pLength.trans hx.1.symm), onBorder, zero_mul, zero_add]
  -- near `p` only the row itself matters
  have around {x : List Rat} (hx : x ∈ hull n P) :
      ∃ t, 0 < t ∧ Solves (before ++ after) (onLine p x t) := by
    obtain ⟨t, pos, holds⟩ := system.exists_onLine pInP hx (before ++ after)
      (fun s inOthers => system.width s (mem_of_mem_others inOthers))
      (fun s inOthers => system.valid (mem_of_mem_others inOthers))
      fun s inOthers proper => .inl (room s inOthers proper)
    exact ⟨t, pos, system.solves_others_iff.2 holds⟩
  have facet : IsFacetAt n P r p := by
    refine ⟨system.width r mem, system.valid mem, inside, pInP, border, ?_⟩
    rintro x ⟨hx, le⟩
    obtain ⟨t, pos, towards⟩ := around hx
    refine ⟨t, pos, system.mem_iff_others.2 ⟨length_onLine pLength hx.1 t, towards, ?_⟩⟩
    rw [scaled border hx]
    exact mul_nonpos_of_nonpos_of_nonneg le pos.le
  refine ⟨p, facet, ?_⟩
  ext x
  refine and_congr_right fun hx => ⟨fun le => ?_, fun le => ?_⟩
  · obtain ⟨t, pos, towards⟩ := around hx
    have implied := stands _ (length_onLine pLength hx.1 t) towards (by
      rw [scaled border' hx]
      exact mul_nonpos_of_nonpos_of_nonneg le pos.le)
    rw [scaled border hx] at implied
    exact nonpos_of_mul_nonpos_left implied pos
  · obtain ⟨t, pos, inP⟩ := facet.around x ⟨hx, le⟩
    have holds := valid _ inP
    rw [scaled border' hx] at holds
    exact nonpos_of_mul_nonpos_left holds pos

end

end Crossing

theorem mem_of_forall_facets (system : Describes n rows P) (minimal : Irredundant n rows)
    (hx : x ∈ hull n P) (all : ∀ H ∈ facets n P, x ∈ H) : x ∈ P := by
  rw [system.mem_iff_excess]
  refine ⟨hx.1, fun r mem => ?_⟩
  by_cases equation : IsEquation n P r
  · exact (hx.2 r equation).le
  · obtain ⟨before, after, rfl⟩ := append_of_mem mem
    obtain ⟨p, facet, -⟩ := system.side_eq_of_standsFor (minimal before r after rfl)
      (system.valid mem) (exists_inside (system.width r mem) (system.valid mem) equation)
      fun _ _ _ le => le
    exact (all _ ⟨r, p, facet, rfl⟩).2

theorem facets_subset {new : List Row} (system : Describes n rows P)
    (minimal : Irredundant n rows) (system' : Describes n new Q) (grows : P ⊆ Q)
    (same : ∀ r, IsEquation n P r ↔ IsEquation n Q r) (stand : ∀ c ∈ new, StandsFor n rows c) :
    facets n Q ⊆ facets n P := by
  rintro H ⟨c, p, facet, rfl⟩
  obtain ⟨w, mem, ⟨z, inQ, inside⟩, sameSide⟩ := system'.exists_row_of_facet facet
  have width := system'.width w mem
  have valid : ∀ x ∈ P, w.excess x ≤ 0 := fun x inP => system'.valid mem x (grows inP)
  have proper : ∃ x ∈ P, w.excess x < 0 := by
    refine exists_inside width valid fun equation => ?_
    exact inside.ne (((same w).1 equation).2 z inQ)
  obtain ⟨before, r, after, rfl, implies⟩ := stand w mem
  obtain ⟨q, facet', equal⟩ := system.side_eq_of_standsFor (minimal before r after rfl) valid
    proper implies
  refine ⟨r, q, facet', ?_⟩
  rw [← equal, ← sameSide, side, side, hull_congr same]

end Describes

/-! ### Equations -/

def equations (n : Nat) (P : Set (List Rat)) : Submodule ℚ (Fin (n + 1) → ℚ) where
  carrier := {v | ∀ x ∈ P, ∑ i : Fin n, v i.castSucc * x.getD i 0 = v (Fin.last n)}
  add_mem' := by
    intro u v hu hv x mem
    simp only [Pi.add_apply, add_mul, Finset.sum_add_distrib]
    rw [hu x mem, hv x mem]
  zero_mem' := by
    intro x _
    simp
  smul_mem' := by
    intro q v hv x mem
    simp only [Pi.smul_apply, smul_eq_mul, mul_assoc, ← Finset.mul_sum]
    rw [hv x mem]

def entries (n : Nat) (r : Row) : Fin (n + 1) → ℚ :=
  Fin.lastCases r.bound fun i => r.coeffs.getD i 0

theorem isEquation_iff (lengths : ∀ x ∈ P, x.length = n) (width : r.coeffs.length = n) :
    IsEquation n P r ↔ entries n r ∈ equations n P := by
  rw [IsEquation, and_iff_right width]
  refine forall₂_congr fun x mem => ?_
  have sum : dot r.coeffs x = ∑ i : Fin n, r.coeffs.getD i 0 * x.getD i 0 := by
    rw [dot_eq_sum_range width (lengths x mem),
      ← Finset.sum_range (fun i => r.coeffs.getD i 0 * x.getD i 0)]
    rfl
  rw [excess, sub_eq_zero, sum]
  simp only [entries, Fin.lastCases_castSucc, Fin.lastCases_last]

/-! ### Growing sets -/

theorem exists_same_equations {P : Nat → Set (List Rat)} (grows : ∀ k, P k ⊆ P (k + 1))
    (lengths : ∀ k, ∀ x ∈ P k, x.length = n) :
    ∃ m, ∀ k ≥ m, ∀ r, IsEquation n (P k) r ↔ IsEquation n (P (k + 1)) r := by
  have fewer : Monotone fun k => OrderDual.toDual (equations n (P k)) :=
    monotone_nat_of_le_succ fun k _ equation x mem => equation x (grows k mem)
  obtain ⟨m, constant⟩ := IsArtinian.monotone_stabilizes ⟨_, fewer⟩
  refine ⟨m, fun k le r => ?_⟩
  have equal : equations n (P k) = equations n (P (k + 1)) :=
    (constant k le).symm.trans (constant (k + 1) (Nat.le_succ_of_le le))
  by_cases width : r.coeffs.length = n
  · rw [isEquation_iff (lengths k) width, isEquation_iff (lengths (k + 1)) width, equal]
  · exact iff_of_false (fun equation => width equation.1) fun equation => width equation.1

private theorem exists_same_of_subset {α : Type} {F : Nat → Set α} (finite : ∀ k, (F k).Finite)
    (fewer : ∀ k, F (k + 1) ⊆ F k) : ∃ m, ∀ k ≥ m, F (k + 1) = F k := by
  have counts : Monotone fun k => OrderDual.toDual (F k).ncard :=
    monotone_nat_of_le_succ fun k => Set.ncard_le_ncard (fewer k) (finite k)
  obtain ⟨m, constant⟩ := WellFoundedGT.monotone_chain_condition ⟨_, counts⟩
  refine ⟨m, fun k le => ?_⟩
  have equal : (F k).ncard = (F (k + 1)).ncard :=
    (constant k le).symm.trans (constant (k + 1) (Nat.le_succ_of_le le))
  exact Set.eq_of_subset_of_ncard_le (fewer k) equal.le (finite k)

theorem exists_constant_of_standsFor {P : Nat → Set (List Rat)} (grows : ∀ k, P k ⊆ P (k + 1))
    (described : ∀ k, ∃ rows, Describes n rows (P k))
    (step : ∀ k, P (k + 1) = P k ∨ ∃ rows new, Describes n rows (P k) ∧ Irredundant n rows ∧
      Describes n new (P (k + 1)) ∧ ∀ c ∈ new, StandsFor n rows c) :
    ∃ m, ∀ k ≥ m, P k = P m := by
  have lengths (k : Nat) : ∀ x ∈ P k, x.length = n := by
    intro x mem
    obtain ⟨_, system⟩ := described k
    exact system.length mem
  obtain ⟨m, same⟩ := exists_same_equations grows lengths
  obtain ⟨l, facetsSame⟩ := exists_same_of_subset
    (fun k => by
      obtain ⟨_, system⟩ := described (m + k)
      exact system.finite_facets)
    (fun k => by
      rcases step (m + k) with equal | ⟨_, _, system, minimal, system', stand⟩
      · exact (congrArg (facets n) equal).subset
      · exact system.facets_subset minimal system' (grows _) (same _ (by omega)) stand)
  refine ⟨m + l, fun k le => ?_⟩
  induction k, le using Nat.le_induction with
  | base => rfl
  | succ k le ih =>
    rw [← ih]
    rcases step k with equal | ⟨_, _, system, minimal, system', -⟩
    · exact equal
    · -- the larger set is in the hull and in all facets of the smaller one
      refine Set.Subset.antisymm (fun x mem => ?_) (grows k)
      obtain ⟨j, rfl⟩ := Nat.exists_eq_add_of_le (le_trans (Nat.le_add_right m l) le)
      refine system.mem_of_forall_facets minimal ?_ fun H facet => ?_
      · rw [hull_congr (same (m + j) (by omega))]
        exact system'.subset_hull mem
      · rw [← facetsSame j (by omega)] at facet
        obtain ⟨c, p, facet, rfl⟩ := facet
        exact ⟨system'.subset_hull mem, facet.valid x mem⟩

end Rows

end Enclosure
