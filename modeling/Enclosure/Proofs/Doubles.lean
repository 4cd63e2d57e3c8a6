import Enclosure.Double
import Enclosure.Proofs.BinaryRounding
import Enclosure.Proofs.ExtendedRationals

/-!
# Sums of doubles

Doubles lie on a grid: the multiples of `2 ^ e` up to `2 ^ 53 * 2 ^ e`, for `e` from `-1074` on.
-/

namespace Enclosure.Double

open Binary

variable {a b g q s x : Rat} {d e : Int}

/-! ### The grid -/

def Multiple (e : Int) (q : Rat) : Prop := ∃ k : Int, q = k * 2 ^ e

def OnGrid (q : Rat) : Prop := ∃ e : Int, -1074 ≤ e ∧ Multiple e q ∧ |q| ≤ 2 ^ 53 * 2 ^ e

def IsDouble : ExtRat → Prop
  | .fin q => OnGrid q ∧ |q| < pow2 1024
  | _ => True

theorem Multiple.add (h : Multiple e a) (h' : Multiple e b) : Multiple e (a + b) := by
  obtain ⟨k, rfl⟩ := h
  obtain ⟨l, rfl⟩ := h'
  exact ⟨k + l, by push_cast; ring⟩

theorem Multiple.neg (h : Multiple e a) : Multiple e (-a) := by
  obtain ⟨k, rfl⟩ := h
  exact ⟨-k, by push_cast; ring⟩

theorem Multiple.sub (h : Multiple e a) (h' : Multiple e b) : Multiple e (a - b) :=
  sub_eq_add_neg a b ▸ h.add h'.neg

theorem Multiple.finer (h : Multiple e a) (le : d ≤ e) : Multiple d a := by
  obtain ⟨k, rfl⟩ := h
  obtain ⟨n, rfl⟩ := Int.le.dest le
  refine ⟨k * 2 ^ n, ?_⟩
  rw [zpow_add₀ two_ne_zero, zpow_natCast]
  push_cast
  ring

theorem multiple_pow (le : d ≤ e) : Multiple d ((2 : Rat) ^ e) :=
  .finer ⟨1, by simp⟩ le

theorem Multiple.le_of_pos (h : Multiple e a) (pos : 0 < a) : 2 ^ e ≤ a := by
  obtain ⟨k, rfl⟩ := h
  have step : (0 : Rat) < 2 ^ e := by positivity
  have positive : (0 : Rat) < k := by
    by_contra nonpos
    exact absurd pos (not_lt.2 (mul_nonpos_of_nonpos_of_nonneg (not_lt.1 nonpos) step.le))
  have one : (1 : Rat) ≤ k := by exact_mod_cast positive
  linarith [mul_le_mul_of_nonneg_right one step.le]

theorem Multiple.abs_le_of_lt (h : Multiple e a) {n : Nat} (lt : |a| < (n + 1) * 2 ^ e) :
    |a| ≤ n * 2 ^ e := by
  obtain ⟨k, rfl⟩ := h
  have step : (0 : Rat) < 2 ^ e := by positivity
  rw [abs_mul, abs_of_pos step] at lt ⊢
  have below : |(k : Rat)| < n + 1 := lt_of_mul_lt_mul_right lt step.le
  have whole : |k| < n + 1 := by exact_mod_cast below
  have atMost : |(k : Rat)| ≤ n := by exact_mod_cast Int.lt_add_one_iff.1 whole
  exact mul_le_mul_of_nonneg_right atMost step.le

theorem OnGrid.neg (h : OnGrid a) : OnGrid (-a) := by
  obtain ⟨e, low, multiple, _⟩ := h
  exact ⟨e, low, multiple.neg, by rwa [abs_neg]⟩

theorem IsDouble.neg {v : ExtRat} (h : IsDouble v) : IsDouble v.neg := by
  cases v with
  | fin q => exact ⟨.neg h.1, by rw [abs_neg]; exact h.2⟩
  | _ => exact trivial

theorem onGrid_zero : OnGrid 0 := ⟨-1074, le_refl _, ⟨0, by simp⟩, by simp⟩

theorem onGrid_pow (low : -1074 ≤ e) : OnGrid ((2 : Rat) ^ e) := by
  have step : (0 : Rat) < 2 ^ e := by positivity
  refine ⟨e, low, multiple_pow (le_refl e), ?_⟩
  rw [abs_of_pos step]
  linarith

theorem OnGrid.multiple (h : OnGrid a) : Multiple (-1074) a := by
  obtain ⟨e, low, multiple, -⟩ := h
  exact multiple.finer low

theorem onGrid_of_abs_le (ha : OnGrid a) (hb : OnGrid b)
    (multiple : ∀ e, Multiple e a → Multiple e b → Multiple e q) (leA : |q| ≤ |a|)
    (leB : |q| ≤ |b|) : OnGrid q := by
  obtain ⟨d, lowD, multipleA, smallA⟩ := ha
  obtain ⟨e, lowE, multipleB, smallB⟩ := hb
  rcases le_total d e with le | le
  · exact ⟨d, lowD, multiple d multipleA (multipleB.finer le), leA.trans smallA⟩
  · exact ⟨e, lowE, multiple e (multipleA.finer le) multipleB, leB.trans smallB⟩

theorem onGrid_sub (ha : OnGrid a) (hb : OnGrid b) (leA : |a - b| ≤ |a|) (leB : |a - b| ≤ |b|) :
    OnGrid (a - b) :=
  onGrid_of_abs_le ha hb (fun _ h h' => h.sub h') leA leB

/-! ### The nearest grid point -/

def nearestGrid (q : Rat) : Rat := if q = 0 then 0 else roundAt (unitExponent q) .nearest q

theorem bounded_eq (h : |q| < pow2 1024) : bounded q = .fin q := by
  rw [abs_lt] at h
  rw [bounded, if_neg (not_le.2 h.2), if_neg (not_le.2 h.1)]

theorem nearest_eq (q : Rat) : nearest q = bounded (nearestGrid q) := by
  unfold nearest nearestGrid
  split
  · rw [bounded_eq (by rw [abs_zero]; exact pow2_pos _), ExtRat.zero]
  · rfl

theorem unitExponent_spec (nonzero : q ≠ 0) :
    -1074 ≤ unitExponent q ∧ |q| < 2 ^ (unitExponent q + 53) ∧
      (-1074 < unitExponent q → 2 ^ (unitExponent q + 52) ≤ |q|) := by
  obtain ⟨low, high⟩ := floorLog2_abs nonzero
  unfold unitExponent
  dsimp only
  split
  · refine ⟨le_refl _, high.trans_le (zpow_le_zpow_right₀ one_le_two (by omega)), by simp⟩
  · refine ⟨by omega, ?_, fun _ => ?_⟩
    · simpa [sub_add] using high
    · simpa using low

theorem abs_roundAt_nearest_sub_le_of_multiple (h : Multiple e g) (q : Rat) :
    |roundAt e .nearest q - q| ≤ |g - q| := by
  obtain ⟨k, rfl⟩ := h
  obtain ⟨l, rounded⟩ := exists_roundAt_eq e .nearest q
  have step : (0 : Rat) < 2 ^ e := by positivity
  have near := abs_roundAt_nearest_sub_le e q
  rw [rounded] at near ⊢
  rcases eq_or_ne k l with rfl | other
  · exact le_refl _
  · -- another multiple is at least half a step away
    have apart : 2 ^ e ≤ |(k : Rat) * 2 ^ e - l * 2 ^ e| := by
      have one : 1 ≤ |(k : Rat) - l| := by
        exact_mod_cast Int.one_le_abs (sub_ne_zero.2 other)
      rw [← sub_mul, abs_mul, abs_of_pos step]
      linarith [mul_le_mul_of_nonneg_right one step.le]
    have triangle := abs_sub_le ((k : Rat) * 2 ^ e) q (l * 2 ^ e)
    rw [abs_sub_comm q] at triangle
    linarith

theorem nearestGrid_spec (nonzero : q ≠ 0) :
    Multiple (unitExponent q) (nearestGrid q) ∧
      |nearestGrid q - q| ≤ 2 ^ unitExponent q / 2 := by
  rw [nearestGrid, if_neg nonzero]
  exact ⟨exists_roundAt_eq _ _ _, abs_roundAt_nearest_sub_le _ _⟩

theorem onGrid_nearestGrid (q : Rat) : OnGrid (nearestGrid q) := by
  by_cases nonzero : q = 0
  · simpa [nearestGrid, nonzero] using onGrid_zero
  obtain ⟨low, high, -⟩ := unitExponent_spec nonzero
  obtain ⟨multiple, _⟩ := nearestGrid_spec nonzero
  have step : (0 : Rat) < 2 ^ unitExponent q := by positivity
  have under : |nearestGrid q| < ((2 ^ 53) + 1) * 2 ^ unitExponent q := by
    have := abs_sub_abs_le_abs_sub (nearestGrid q) q
    rw [zpow_add₀ two_ne_zero] at high
    linarith
  exact ⟨_, low, multiple, by exact_mod_cast multiple.abs_le_of_lt under⟩

theorem abs_nearestGrid_sub_le (hg : OnGrid g) (q : Rat) : |nearestGrid q - q| ≤ |g - q| := by
  by_cases nonzero : q = 0
  · simp [nearestGrid, nonzero]
  obtain ⟨-, -, normal⟩ := unitExponent_spec nonzero
  obtain ⟨e, _, multiple, small⟩ := hg
  have best {c : Rat} (h : Multiple (unitExponent q) c) : |nearestGrid q - q| ≤ |c - q| := by
    rw [nearestGrid, if_neg nonzero]
    exact abs_roundAt_nearest_sub_le_of_multiple h q
  rcases le_or_gt (unitExponent q) e with coarse | _
  · exact best (multiple.finer coarse)
  · -- a finer grid point is no larger than the least point at the last place of `q`
    have least : |g| ≤ 2 ^ (unitExponent q + 52) := by
      refine small.trans ?_
      rw [← zpow_natCast, ← zpow_add₀ two_ne_zero]
      exact zpow_le_zpow_right₀ one_le_two (by omega)
    have enough := normal (by omega)
    have point : Multiple (unitExponent q) (2 ^ (unitExponent q + 52)) :=
      multiple_pow (by omega)
    rcases lt_or_ge q 0 with negative | nonnegative
    · refine (best point.neg).trans ?_
      rw [abs_of_neg negative] at enough
      rw [abs_of_nonneg (by linarith)]
      linarith [neg_abs_le g, le_abs_self (g - q)]
    · refine (best point).trans ?_
      rw [abs_of_nonneg nonnegative] at enough
      rw [abs_of_nonpos (by linarith)]
      linarith [le_abs_self g, neg_abs_le (g - q)]

theorem nearestGrid_eq (hg : OnGrid g) : nearestGrid g = g := by
  have := abs_nearestGrid_sub_le hg g
  rw [sub_self] at this
  exact sub_eq_zero.1 (abs_nonpos_iff.1 this)

theorem nearestGrid_le (hg : OnGrid g) (le : q ≤ g) : nearestGrid q ≤ g := by
  by_contra beyond
  have := abs_nearestGrid_sub_le hg q
  rw [abs_of_nonneg (by linarith), abs_of_nonneg (by linarith)] at this
  linarith

theorem le_nearestGrid (hg : OnGrid g) (le : g ≤ q) : g ≤ nearestGrid q := by
  by_contra under
  have := abs_nearestGrid_sub_le hg q
  rw [abs_of_nonpos (by linarith), abs_of_nonpos (by linarith)] at this
  linarith

theorem Multiple.nearestGrid (h : Multiple e q) : Multiple e (nearestGrid q) := by
  by_cases nonzero : q = 0
  · simpa [Double.nearestGrid, nonzero] using h
  rcases le_or_gt e (unitExponent q) with coarse | fine
  · exact (nearestGrid_spec nonzero).1.finer coarse
  · have near := abs_roundAt_nearest_sub_le_of_multiple (h.finer fine.le) q
    rw [sub_self] at near
    rwa [Double.nearestGrid, if_neg nonzero, sub_eq_zero.1 (abs_nonpos_iff.1 near)]

theorem abs_nearestGrid_sub_le_div (h : Multiple (-1074) q) : |nearestGrid q - q| ≤ |q| / 8 := by
  by_cases nonzero : q = 0
  · simp [nearestGrid, nonzero]
  obtain ⟨low, -, normal⟩ := unitExponent_spec nonzero
  rcases low.eq_or_lt with least | more
  · have near := abs_roundAt_nearest_sub_le_of_multiple (least ▸ h) q
    rw [sub_self, abs_zero] at near
    rw [nearestGrid, if_neg nonzero]
    linarith [abs_nonneg q]
  · refine (nearestGrid_spec nonzero).2.trans ?_
    have enough := normal more
    rw [zpow_add₀ two_ne_zero] at enough
    have step : (0 : Rat) < 2 ^ unitExponent q := by positivity
    linarith

/-! ### What a nearest sum leaves -/

theorem abs_sumError_le (ha : OnGrid a) (hb : OnGrid b) :
    |a + b - nearestGrid (a + b)| ≤ |a| ∧ |a + b - nearestGrid (a + b)| ≤ |b| := by
  have byB := abs_nearestGrid_sub_le hb (a + b)
  have byA := abs_nearestGrid_sub_le ha (a + b)
  rw [abs_sub_comm (nearestGrid (a + b))] at byA byB
  constructor
  · rwa [show b - (a + b) = -a by ring, abs_neg] at byB
  · rwa [show a - (a + b) = -b by ring, abs_neg] at byA

theorem onGrid_sumError (ha : OnGrid a) (hb : OnGrid b) : OnGrid (a + b - nearestGrid (a + b)) :=
  onGrid_of_abs_le ha hb (fun _ h h' => (h.add h').sub (h.add h').nearestGrid)
    (abs_sumError_le ha hb).1 (abs_sumError_le ha hb).2

private theorem onGrid_entered_of_le (low : -1074 ≤ d) (fine : d ≤ e) (ha : Multiple e a)
    (smallA : |a| ≤ 2 ^ 53 * 2 ^ e) (hb : Multiple d b) (smallB : |b| ≤ 2 ^ 53 * 2 ^ d)
    (le : |b| ≤ |a|) : OnGrid (nearestGrid (a + b) - a) := by
  have gridB : OnGrid b := ⟨d, low, hb, smallB⟩
  -- where the sum is exact there is nothing to show
  by_cases exact : nearestGrid (a + b) = a + b
  · rwa [exact, add_sub_cancel_left]
  have nonzero : a + b ≠ 0 := fun zero => exact (by rw [zero, nearestGrid, if_pos rfl])
  obtain ⟨-, -, normal⟩ := unitExponent_spec nonzero
  obtain ⟨multiple, _⟩ := nearestGrid_spec nonzero
  set u := unitExponent (a + b) with hu
  -- both operands are multiples of `2 ^ d`, so a sum that is not exact has a coarser unit
  have coarse : d < u := by
    by_contra fineSum
    rw [not_lt] at fineSum
    have same := abs_roundAt_nearest_sub_le_of_multiple
      (((ha.finer fine).add hb).finer fineSum) (a + b)
    rw [sub_self] at same
    refine exact ?_
    rw [nearestGrid, if_neg nonzero]
    exact sub_eq_zero.1 (abs_nonpos_iff.1 same)
  have distance : |nearestGrid (a + b) - a| ≤ |b| + 2 ^ u / 2 := by
    calc |nearestGrid (a + b) - a| = |b + (nearestGrid (a + b) - (a + b))| := by
          congr 1
          ring
      _ ≤ |b| + |nearestGrid (a + b) - (a + b)| := abs_add_le _ _
      _ ≤ |b| + 2 ^ u / 2 := by linarith
  have stepU : (0 : Rat) < 2 ^ u := by positivity
  rcases le_or_gt u e with between | beyond
  · -- the unit of the sum is one for `a` too, and `b` has few enough of them
    refine ⟨u, by omega, multiple.sub (ha.finer between), distance.trans ?_⟩
    have half : (2 : Rat) ^ 53 * 2 ^ d ≤ 2 ^ 52 * 2 ^ u := by
      have : (2 : Rat) ^ (d + 1) ≤ 2 ^ u := zpow_le_zpow_right₀ one_le_two (by omega)
      rw [zpow_add_one₀ two_ne_zero] at this
      linarith
    linarith
  · -- the sum has one bit more than `a`, which is then the finest that is left
    have smaller : |b| < 2 ^ 53 * 2 ^ e := by
      by_contra large
      have equal : |a| = |b| := le_antisymm (smallA.trans (not_lt.1 large)) le
      rcases abs_eq_abs.1 equal with rfl | rfl
      · refine exact (nearestGrid_eq ⟨e + 1, by omega, ?_, ?_⟩)
        · obtain ⟨k, rfl⟩ := ha
          exact ⟨k, by rw [zpow_add_one₀ two_ne_zero]; ring⟩
        · rw [← two_mul, abs_mul, abs_two, zpow_add_one₀ two_ne_zero]
          linarith
      · exact nonzero (by ring)
    have oneMore : u = e + 1 := by
      have size : (2 : Rat) ^ (u + 52) < 2 ^ (e + 54) := by
        calc 2 ^ (u + 52) ≤ |a + b| := normal (by omega)
          _ ≤ |a| + |b| := abs_add_le a b
          _ < 2 ^ 54 * 2 ^ e := by linarith
          _ = 2 ^ (e + 54) := by
            rw [zpow_add₀ two_ne_zero, mul_comm]
            norm_num
      have := (zpow_lt_zpow_iff_right₀ one_lt_two).1 size
      omega
    have reach : |nearestGrid (a + b) - a| < ((2 ^ 53) + 1) * 2 ^ e := by
      rw [oneMore, zpow_add_one₀ two_ne_zero] at distance
      linarith
    have bound := ((multiple.finer beyond.le).sub ha).abs_le_of_lt reach
    exact ⟨e, by omega, (multiple.finer beyond.le).sub ha, by exact_mod_cast bound⟩

theorem onGrid_entered (ha : OnGrid a) (hb : OnGrid b) (le : |b| ≤ |a|) :
    OnGrid (nearestGrid (a + b) - a) := by
  obtain ⟨e, lowA, multipleA, smallA⟩ := ha
  obtain ⟨d, lowB, multipleB, smallB⟩ := hb
  rcases le_total d e with fine | coarse
  · exact onGrid_entered_of_le lowB fine multipleA smallA multipleB smallB le
  · exact onGrid_entered_of_le lowA (le_refl e) multipleA smallA (multipleB.finer coarse)
      (le.trans smallA) le

/-! ### The computed error -/

theorem nearest_of_isDouble (h : IsDouble (.fin q)) : nearest q = .fin q := by
  rw [nearest_eq, nearestGrid_eq h.1, bounded_eq h.2]

theorem difference?_eq (h : IsDouble (.fin (a - b))) :
    difference? (.fin a) (.fin b) = some (.fin (a - b)) := by
  change some (nearest (a + -b)) = _
  rw [← sub_eq_add_neg, nearest_of_isDouble h]

private theorem sumError?_of_entered {t : Rat}
    (entered : difference? (.fin s) (.fin a) = some (.fin t))
    (kept : IsDouble (.fin (s - t))) (left : IsDouble (.fin (a - (s - t))))
    (right : IsDouble (.fin (b - t))) (error : IsDouble (.fin (a + b - s))) :
    sumError? (.fin a) (.fin b) (.fin s) = some (.fin (a + b - s)) := by
  have total : a - (s - t) - -(b - t) = a + b - s := by ring
  simp only [sumError?, entered, Option.bind_eq_bind, Option.bind_some, difference?_eq kept,
    difference?_eq left, difference?_eq right, ExtRat.neg]
  rw [difference?_eq (by rwa [total]), total]

private theorem isDouble_error (ha : IsDouble (.fin a)) (hb : IsDouble (.fin b)) :
    IsDouble (.fin (a + b - nearestGrid (a + b))) :=
  ⟨onGrid_sumError ha.1 hb.1, (abs_sumError_le ha.1 hb.1).1.trans_lt ha.2⟩

theorem isDouble_zero : IsDouble (.fin 0) :=
  ⟨onGrid_zero, by rw [abs_zero]; exact pow2_pos _⟩

private theorem sumError?_of_abs_le (ha : IsDouble (.fin a)) (hb : IsDouble (.fin b))
    (nonneg : 0 ≤ a + b) (short : nearestGrid (a + b) < a + b) (le : |b| ≤ |a|) :
    sumError? (.fin a) (.fin b) (.fin (nearestGrid (a + b))) =
      some (.fin (a + b - nearestGrid (a + b))) := by
  have sumNonneg := le_nearestGrid onGrid_zero nonneg
  have error := isDouble_error ha hb
  have inRange : |nearestGrid (a + b) - a| < pow2 1024 := by
    rw [abs_lt]
    constructor <;> linarith [(abs_lt.1 ha.2).2, (abs_lt.1 hb.2).2]
  refine sumError?_of_entered (difference?_eq ⟨onGrid_entered ha.1 hb.1 le, inRange⟩) ?_ ?_ ?_ error
  · rwa [sub_sub_cancel]
  · rw [sub_sub_cancel, sub_self]
    exact isDouble_zero
  · rwa [show b - (nearestGrid (a + b) - a) = a + b - nearestGrid (a + b) by ring]

private theorem abs_le_nearestGrid (ha : OnGrid a) (hb : OnGrid b)
    (short : nearestGrid (a + b) < a + b) (lt : |a| < b) : |a| ≤ nearestGrid (a + b) := by
  rcases le_or_gt 0 a with _ | negA
  · exact lt.le.trans (le_nearestGrid hb (by linarith))
  · rw [abs_of_neg negA] at lt ⊢
    refine le_nearestGrid ha.neg ?_
    by_contra cancelled
    have exact : OnGrid (b - -a) := by
      refine onGrid_sub hb ha.neg ?_ ?_ <;>
        rw [abs_of_pos (by linarith), abs_of_pos (by linarith)] <;> linarith
    rw [sub_neg_eq_add, add_comm] at exact
    exact absurd (nearestGrid_eq exact) short.ne

private theorem sumError?_of_abs_lt (ha : IsDouble (.fin a)) (hb : IsDouble (.fin b))
    (finite : |nearestGrid (a + b)| < pow2 1024) (short : nearestGrid (a + b) < a + b)
    (lt : |a| < b) : sumError? (.fin a) (.fin b) (.fin (nearestGrid (a + b))) =
      some (.fin (a + b - nearestGrid (a + b))) := by
  have error := isDouble_error ha hb
  have atLeast := abs_le_nearestGrid ha.1 hb.1 short lt
  have part := onGrid_entered hb.1 ha.1 (lt.le.trans (le_abs_self b))
  rw [add_comm b a] at part
  have near := abs_nearestGrid_sub_le_div (ha.1.multiple.add hb.1.multiple)
  have gridS := onGrid_nearestGrid (a + b)
  set s := nearestGrid (a + b)
  have near' := abs_nearestGrid_sub_le_div (gridS.multiple.sub ha.1.multiple)
  set t := nearestGrid (s - a) with ht
  obtain ⟨-, _⟩ := abs_lt.1 hb.2
  obtain ⟨-, _⟩ := abs_lt.1 finite
  obtain ⟨_, _⟩ := abs_le.1 lt.le
  have nonnegT : 0 ≤ t := le_nearestGrid onGrid_zero (by linarith [le_abs_self a])
  have atMost : t ≤ b := nearestGrid_le hb.1 (by linarith)
  have entered : difference? (.fin s) (.fin a) = some (.fin t) := by
    change some (nearest (s + -a)) = _
    rw [← sub_eq_add_neg, nearest_eq, bounded_eq]
    rw [abs_of_nonneg nonnegT]
    linarith
  rcases atMost.eq_or_lt with all | _
  · -- all of `b` entered, so the error is what is missing of `a`
    rw [all] at entered
    refine sumError?_of_entered entered ⟨part, ?_⟩ ?_ ?_ error
    · rw [abs_lt]
      constructor <;> linarith [abs_nonneg a]
    · rwa [show a - (s - b) = a + b - s by ring]
    · rw [sub_self]
      exact isDouble_zero
  · -- `s - a` is itself a sum of doubles, so its error and what entered it are exact
    have keptGrid : OnGrid (s - t) := by
      have := (onGrid_entered gridS ha.1.neg
        (by rw [abs_neg]; exact atLeast.trans (le_abs_self s))).neg
      rwa [← sub_eq_add_neg, neg_sub] at this
    have leftGrid : OnGrid (a - (s - t)) := by
      have := (onGrid_sumError gridS ha.1.neg).neg
      rwa [← sub_eq_add_neg, show -(s - a - t) = a - (s - t) by ring] at this
    have leftSmall : |a - (s - t)| ≤ |a| := by
      have := (abs_sumError_le gridS ha.1.neg).2
      rwa [← sub_eq_add_neg, abs_neg, abs_sub_comm, show t - (s - a) = a - (s - t) by ring] at this
    -- `b` and `t` differ by two rounding errors only, so their difference is exact as well
    have half : b - t ≤ t := by
      rw [abs_of_nonpos (by linarith), abs_of_nonneg (by linarith)] at near
      rw [abs_of_nonneg (by linarith : 0 ≤ s - a)] at near'
      linarith [neg_abs_le (t - (s - a))]
    refine sumError?_of_entered entered ⟨keptGrid, ?_⟩ ⟨leftGrid, leftSmall.trans_lt ha.2⟩
      ⟨onGrid_sub hb.1 (onGrid_nearestGrid _) ?_ ?_, ?_⟩ error
    · rw [abs_lt]
      constructor <;> linarith [abs_nonneg a]
    · rw [abs_of_pos (by linarith), abs_of_pos (by linarith)]
      linarith
    · rwa [abs_of_pos (by linarith), abs_of_nonneg nonnegT]
    · rw [abs_of_pos (by linarith)]
      linarith

theorem sumError?_eq (ha : IsDouble (.fin a)) (hb : IsDouble (.fin b)) (nonneg : 0 ≤ a + b)
    (finite : |nearestGrid (a + b)| < pow2 1024) (short : nearestGrid (a + b) < a + b) :
    sumError? (.fin a) (.fin b) (.fin (nearestGrid (a + b))) =
      some (.fin (a + b - nearestGrid (a + b))) := by
  rcases le_or_gt |b| |a| with le | lt
  · exact sumError?_of_abs_le ha hb nonneg short le
  · refine sumError?_of_abs_lt ha hb finite short ?_
    rcases abs_cases b with ⟨same, -⟩ | ⟨_, _⟩
    · rwa [same] at lt
    · linarith [le_abs_self a]

/-! ### Rounding a sum up -/

theorem fin_le_bounded (nonneg : 0 ≤ q) (le : x ≤ q) : .fin x ≤ bounded q := by
  unfold bounded
  split
  · exact ExtRat.le_posInf _
  · split
    · linarith
    · exact le

theorem fin_le_above_nearestGrid (multiple : Multiple (-1074) x) (positive : 0 < x) :
    .fin x ≤ above (.fin (nearestGrid x)) := by
  obtain ⟨low, -, normal⟩ := unitExponent_spec positive.ne'
  obtain ⟨-, _⟩ := nearestGrid_spec positive.ne'
  have least : 2 ^ (-1074 : Int) ≤ nearestGrid x :=
    le_nearestGrid (onGrid_pow (le_refl _)) (multiple.le_of_pos positive)
  have positive' : 0 < nearestGrid x := lt_of_lt_of_le (by positivity) least
  -- rounding does not move the last place down, so the step up covers the rounding error
  have place : unitExponent x ≤ unitExponent (nearestGrid x) := by
    obtain ⟨_, high', -⟩ := unitExponent_spec positive'.ne'
    rcases low.eq_or_lt with equal | more
    · rwa [← equal]
    · have reach : 2 ^ (unitExponent x + 52) ≤ nearestGrid x :=
        le_nearestGrid (onGrid_pow (by omega)) (by simpa [abs_of_pos positive] using normal more)
      rw [abs_of_pos positive'] at high'
      have := (zpow_lt_zpow_iff_right₀ one_lt_two).1 (reach.trans_lt high')
      omega
  have step : (2 : Rat) ^ unitExponent x ≤ 2 ^ unitExponent (nearestGrid x) :=
    zpow_le_zpow_right₀ one_le_two place
  have stepPos : (0 : Rat) < 2 ^ unitExponent x := by positivity
  rw [above, if_pos positive'.le, raise, if_neg positive'.ne', pow2_eq]
  refine fin_le_bounded (by positivity) ?_
  linarith [neg_abs_le (nearestGrid x - x)]

theorem fin_le_above (nonneg : 0 ≤ q) : .fin q ≤ above (.fin q) := by
  rw [above, if_pos nonneg, raise]
  split
  · rename_i zero
    rw [zero]
    exact (pow2_pos _).le
  · exact fin_le_bounded (add_nonneg nonneg (pow2_pos _).le)
      (by linarith [pow2_pos (unitExponent q)])

theorem fin_le_adjust_up (nonneg : 0 ≤ q) (side : Ordering) :
    .fin q ≤ adjust .up (.fin q) side := by
  cases side with
  | lt => exact le_refl _
  | eq => exact le_refl _
  | gt => exact fin_le_above nonneg

theorem le_add?_up (ha : IsDouble (.fin a)) (hb : IsDouble (.fin b)) (nonneg : 0 ≤ a + b) :
    ∃ z, add? .up (.fin a) (.fin b) = some z ∧ .fin (a + b) ≤ z := by
  have sumNonneg : 0 ≤ nearestGrid (a + b) := le_nearestGrid onGrid_zero nonneg
  rw [add?, nearest_eq]
  by_cases finite : |nearestGrid (a + b)| < pow2 1024
  · rw [bounded_eq finite]
    refine ⟨_, rfl, ?_⟩
    rcases lt_or_ge (nearestGrid (a + b)) (a + b) with short | enough
    · -- the error is seen, so the result is the next double
      have order : (ExtRat.fin (a + b - nearestGrid (a + b))).order .zero = .gt := by
        simp [ExtRat.order, ExtRat.zero, short, short.not_gt]
      rw [sumError?_eq ha hb nonneg finite short]
      simp only [order]
      exact fin_le_above_nearestGrid (ha.1.multiple.add hb.1.multiple)
        (lt_of_le_of_lt sumNonneg short)
    · exact le_trans (ExtRat.fin_le_fin.2 enough) (fin_le_adjust_up sumNonneg _)
  · have overflow : bounded (nearestGrid (a + b)) = .posInf := by
      rw [abs_of_nonneg sumNonneg, not_lt] at finite
      rw [bounded, if_pos finite]
    rw [overflow]
    exact ⟨_, rfl, ExtRat.le_posInf _⟩

theorem adjust_down_zero_le (side : Ordering) : adjust .down (.fin 0) side ≤ .fin 0 := by
  cases side with
  | lt =>
    have next := ExtRat.neg_le_neg (fin_le_above (le_refl 0))
    simpa [adjust, below, ExtRat.neg] using next
  | eq => exact le_refl _
  | gt => exact le_refl _

theorem add?_down_neg_le (q : Rat) :
    ∃ z, add? .down (.fin q) (.fin (-q)) = some z ∧ z ≤ .fin 0 := by
  have zero : nearest (q + -q) = .fin 0 := by
    rw [add_neg_cancel, nearest_of_isDouble isDouble_zero]
  rw [add?, zero]
  exact ⟨_, rfl, adjust_down_zero_le _⟩

end Enclosure.Double
