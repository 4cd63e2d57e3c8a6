import Enclosure.Proofs.Constraints
import Enclosure.Proofs.Running
import Enclosure.Proofs.Vectors

/-!
# Linear bounds

A linear bound in normal form says the same of the points of a space as before: it is divided by a
positive number, and where all dimensions that matter are integers it is tightened to the next
integer.
-/

namespace Enclosure

open List Op LinearForm BoundRelation

namespace LinearBound

variable {b : LinearBound} {s : Space} {x cs : List Rat} {q : Rat} {P : List Rat → Prop} {n : Nat}

/-! ### Normal forms -/

theorem holds_mul (pos : 0 < q) (relation : BoundRelation) (u v : Rat) :
    relation.holds (u * q) (v * q) = relation.holds u v := by
  cases relation with
  | atMost => simp [holds, mul_le_mul_iff_of_pos_right pos]
  | below => simp [holds, mul_lt_mul_iff_of_pos_right pos]
  | equal => simp [holds, mul_left_inj' pos.ne']

theorem holdsAt_scale (pos : 0 < q) : (b.scale q).holdsAt x = b.holdsAt x := by
  simp only [holdsAt, scale, dot_map_mul, holds_mul pos]

private theorem denominator_dvd (cs : List Rat) (n : Nat) :
    n ∣ cs.foldl (fun n c => n.lcm c.den) n ∧
      ∀ c ∈ cs, c.den ∣ cs.foldl (fun n c => n.lcm c.den) n := by
  induction cs generalizing n with
  | nil => simp
  | cons c cs ih =>
    obtain ⟨start, rest⟩ := ih (n.lcm c.den)
    refine ⟨(Nat.dvd_lcm_left n c.den).trans start, fun d mem => ?_⟩
    rcases mem_cons.1 mem with rfl | later
    · exact (Nat.dvd_lcm_right n d.den).trans start
    · exact rest d later

private theorem lcm_pos (cs : List Rat) (pos : 0 < n) :
    0 < cs.foldl (fun n c => n.lcm c.den) n := by
  induction cs generalizing n with
  | nil => exact pos
  | cons c cs ih => exact ih (Nat.lcm_pos pos c.den_pos)

theorem denominator_pos (cs : List Rat) : 0 < denominator cs := lcm_pos cs Nat.one_pos

private theorem content_dvd' (cs : List Rat) (n : Nat) :
    cs.foldl (fun n c => n.gcd c.num.natAbs) n ∣ n ∧
      ∀ c ∈ cs, cs.foldl (fun n c => n.gcd c.num.natAbs) n ∣ c.num.natAbs := by
  induction cs generalizing n with
  | nil => simp
  | cons c cs ih =>
    obtain ⟨start, rest⟩ := ih (n.gcd c.num.natAbs)
    refine ⟨start.trans (Nat.gcd_dvd_left _ _), fun d mem => ?_⟩
    rcases mem_cons.1 mem with rfl | later
    · exact start.trans (Nat.gcd_dvd_right _ _)
    · exact rest d later

theorem content_dvd {c : Rat} (mem : c ∈ cs) : content cs ∣ c.num.natAbs :=
  (content_dvd' cs 0).2 c mem

theorem content_pos (matters : allZero cs = false) : 0 < content cs := by
  obtain ⟨c, mem, nonzero⟩ : ∃ c ∈ cs, c ≠ 0 := by simpa [allZero] using matters
  refine Nat.pos_of_ne_zero fun zero => nonzero ?_
  have := content_dvd mem
  rw [zero, Nat.zero_dvd, Int.natAbs_eq_zero] at this
  exact Rat.num_eq_zero.1 this

theorem allZero_scale (nonzero : q ≠ 0) : allZero (b.scale q).coeffs = allZero b.coeffs := by
  simp [allZero, scale, Function.comp_def, nonzero]

theorem exists_primitive_eq (matters : allZero b.coeffs = false) :
    ∃ p q : Rat, 0 < p ∧ 0 < q ∧ b.primitive = (b.scale p).scale q := by
  have denominator : (0 : Rat) < denominator b.coeffs := by exact_mod_cast denominator_pos _
  have content : (0 : Rat) < content (b.scale (LinearBound.denominator b.coeffs)).coeffs := by
    exact_mod_cast content_pos ((allZero_scale denominator.ne').trans matters)
  exact ⟨_, _, denominator, one_div_pos.2 content, rfl⟩

theorem holdsAt_primitive (matters : allZero b.coeffs = false) :
    b.primitive.holdsAt x = b.holdsAt x := by
  obtain ⟨p, q, hp, hq, same⟩ := exists_primitive_eq matters
  rw [same, holdsAt_scale hq, holdsAt_scale hp]

private theorem den_mul_of_dvd {c : Rat} (dvd : c.den ∣ n) : (c * n).den = 1 := by
  obtain ⟨k, rfl⟩ := dvd
  have whole : c * (c.den * k : Nat) = (c.num * k : Int) := by
    push_cast
    rw [← mul_assoc, Rat.mul_den_eq_num]
  rw [whole, Rat.den_intCast]

private theorem den_mul_inv_of_dvd {c : Rat} (whole : c.den = 1) (dvd : n ∣ c.num.natAbs) :
    (c * (1 / (n : Rat))).den = 1 := by
  obtain ⟨k, factor⟩ := Int.natCast_dvd.2 dvd
  rcases Nat.eq_zero_or_pos n with rfl | _
  · simp
  · have quotient : c * (1 / n) = k := by
      rw [← Rat.den_eq_one_iff c |>.1 whole, factor]
      push_cast
      field_simp
    rw [quotient, Rat.den_intCast]

theorem den_of_mem_primitive {c : Rat} (mem : c ∈ b.primitive.coeffs) : c.den = 1 := by
  obtain ⟨d, inWhole, rfl⟩ := mem_map.1 mem
  have whole : d.den = 1 := by
    obtain ⟨e, inCoeffs, rfl⟩ := mem_map.1 inWhole
    exact den_mul_of_dvd ((denominator_dvd _ 1).2 _ inCoeffs)
  exact den_mul_inv_of_dvd whole (content_dvd inWhole)

theorem den_dot (whole : ∀ c ∈ cs, c.den = 1)
    (integral : ∀ (d : Nat) (c : Rat), cs[d]? = some c → c = 0 ∨ (x.getD d 0).den = 1) :
    (dot cs x).den = 1 := by
  induction cs generalizing x with
  | nil => simp
  | cons c cs ih =>
    cases x with
    | nil => simp
    | cons v x =>
      have first : (c * v).den = 1 := by
        rcases integral 0 c (by simp) with rfl | point
        · simp
        · rw [← (Rat.den_eq_one_iff c).1 (whole c (by simp)), ← (Rat.den_eq_one_iff v).1 point,
            ← Int.cast_mul, Rat.den_intCast]
      have rest : (dot cs x).den = 1 := ih (fun d mem => whole d (by simp [mem]))
        fun d e found => integral (d + 1) e (by simpa using found)
      rw [dot_cons, ← (Rat.den_eq_one_iff _).1 first, ← (Rat.den_eq_one_iff _).1 rest,
        ← Int.cast_add, Rat.den_intCast]

theorem holdsAt_tighten (whole : (dot b.coeffs x).den = 1) :
    b.holdsAt x = true ↔ b.tighten.1 = true ∧ b.tighten.2.holdsAt x = true := by
  obtain ⟨n, value⟩ : ∃ n : Int, dot b.coeffs x = n := ⟨_, ((Rat.den_eq_one_iff _).1 whole).symm⟩
  unfold tighten holdsAt
  cases relation : b.relation with
  | atMost => simp [holds, value, Rat.le_floor_iff]
  | below =>
    have next : (n : Rat) ≤ b.bound.ceil - 1 ↔ n < b.bound.ceil := by
      rw [le_sub_iff_add_le]
      exact_mod_cast Iff.rfl
    simp [holds, value, next, Rat.lt_ceil_iff]
  | equal =>
    have denominator (equal : dot b.coeffs x = b.bound) : b.bound.den = 1 := equal ▸ whole
    simpa [holds, relation] using denominator

private theorem holdsAt_normalize_of_matters (matters : b.trivial? = none)
    (point : s.IsPoint x ∨ b.primitive.isIntegral s = false) :
    b.holdsAt x = true ↔ (b.normalize s).1 = true ∧ (b.normalize s).2.holdsAt x = true := by
  have nonzero : allZero b.coeffs = false := by
    by_contra zero
    simp [trivial?, Bool.not_eq_false _ ▸ zero] at matters
  rw [normalize, matters]
  dsimp only
  rw [← holdsAt_primitive nonzero]
  split
  · rename_i integral
    have point : s.IsPoint x := by
      rcases point with point | real
      · exact point
      · simp [real] at integral
    refine holdsAt_tighten (den_dot (fun c mem => den_of_mem_primitive mem) fun d c found => ?_)
    have int := all_eq_true.1 integral (c, d) (mem_zipIdx_iff_getElem?.2 (by simpa using found))
    simp only [Bool.or_eq_true, decide_eq_true_eq] at int
    exact int.imp id (point.integral d)
  · simp

theorem holdsAt_normalize
    (point : s.IsPoint x ∨ b.trivial? = none ∧ b.primitive.isIntegral s = false) :
    b.holdsAt x = true ↔ (b.normalize s).1 = true ∧ (b.normalize s).2.holdsAt x = true := by
  cases constant : b.trivial? with
  | none => exact holdsAt_normalize_of_matters constant (point.imp id And.right)
  | some holds =>
    have zero : allZero b.coeffs = true := by
      by_contra matters
      simp [trivial?, matters] at constant
    have value : b.holdsAt x = holds := by
      simpa [trivial?, zero, holdsAt, dot_of_allZero zero] using constant
    rw [normalize, constant]
    rw [value, and_self]

theorem length_primitive : b.primitive.coeffs.length = b.coeffs.length := by
  simp [primitive, scale]

theorem coeffs_normalize (scaled : ∀ cs q, P cs → P (cs.map (· * q))) (h : P b.coeffs) :
    P (b.normalize s).2.coeffs := by
  have primitive : P b.primitive.coeffs := scaled _ _ (scaled _ _ h)
  unfold normalize
  split
  · exact h
  · split
    · unfold tighten
      split <;> exact primitive
    · exact primitive

private theorem holdsAt_of_trivial? (h : b.trivial? = some true) : b.holdsAt x = true := by
  have zero : allZero b.coeffs = true := by
    by_contra matters
    simp [trivial?, matters] at h
  simpa [trivial?, zero, holdsAt, dot_of_allZero zero] using h

theorem holdsAt_normalizeAll {bs : List LinearBound}
    (each : ∀ b ∈ bs, b.holdsAt x = true ↔
      (b.normalize s).1 = true ∧ (b.normalize s).2.holdsAt x = true) :
    (∀ b ∈ bs, b.holdsAt x = true) ↔
      ∃ cs, normalizeAll s bs = some cs ∧ ∀ c ∈ cs, c.holdsAt x = true := by
  induction bs with
  | nil => simp [normalizeAll]
  | cons b bs ih =>
    have ih := ih fun c mem => each c (by simp [mem])
    rw [forall_mem_cons, each b (by simp), ih, normalizeAll]
    rcases normal : b.normalize s with ⟨possible, c⟩
    cases possible with
    | false => simp
    | true =>
      cases rest : normalizeAll s bs with
      | none => simp
      | some cs =>
        by_cases always : c.trivial? = some true
        · simp [always, holdsAt_of_trivial? always]
        · simp [always]

theorem exists_of_mem_normalizeAll {bs cs : List LinearBound}
    (normal : normalizeAll s bs = some cs) :
    ∀ c ∈ cs, ∃ b ∈ bs, b.normalize s = (true, c) ∧ c.trivial? ≠ some true := by
  induction bs generalizing cs with
  | nil => simp_all [normalizeAll]
  | cons b bs ih =>
    rw [normalizeAll] at normal
    rcases step : b.normalize s with ⟨possible, c⟩
    rw [step] at normal
    cases possible with
    | false => simp at normal
    | true =>
      obtain ⟨ds, rest, rfl⟩ := Option.map_eq_some_iff.1 normal
      have later : ∀ d ∈ ds, ∃ e ∈ b :: bs, e.normalize s = (true, d) ∧ d.trivial? ≠ some true :=
        fun d mem => (ih rest d mem).imp fun _ found => ⟨mem_cons_of_mem b found.1, found.2⟩
      split
      · exact later
      · rename_i other
        exact forall_mem_cons.2 ⟨⟨b, mem_cons_self, step, other⟩, later⟩

theorem of_mem_normalizeAll {P : LinearBound → Prop} {bs cs : List LinearBound}
    (normalized : ∀ b, P b → P (b.normalize s).2) (normal : normalizeAll s bs = some cs)
    (all : ∀ b ∈ bs, P b) : ∀ c ∈ cs, P c := by
  intro c mem
  obtain ⟨b, given, step, -⟩ := exists_of_mem_normalizeAll normal c mem
  simpa only [step] using normalized b (all b given)

theorem coeffs_of_mem_normalizeAll {bs cs : List LinearBound}
    (scaled : ∀ cs q, P cs → P (cs.map (· * q))) (normal : normalizeAll s bs = some cs)
    (all : ∀ b ∈ bs, P b.coeffs) : ∀ c ∈ cs, P c.coeffs :=
  of_mem_normalizeAll (fun _ h => coeffs_normalize scaled h) normal all

theorem relation_normalize (loose : b.relation ≠ .below) : (b.normalize s).2.relation ≠ .below := by
  have primitive : b.primitive.relation ≠ .below := loose
  unfold normalize
  split
  · exact loose
  · split
    · unfold tighten
      split
      · exact primitive
      · rename_i strict
        exact absurd strict primitive
      · exact primitive
    · exact primitive

/-! ### Coefficients of a form -/

open Terms (SumsTo)

theorem getD_replicate_zero (n d : Nat) : (replicate n (0 : Rat)).getD d 0 = 0 := by simp

theorem coefficients_spec {size : Nat} {es : List (Nat × Coefficient)} {acc : List Rat}
    (length : acc.length = size) (inside : ∀ e ∈ es, e.1 < size)
    (nodup : (es.map Prod.fst).Nodup) (fresh : ∀ e ∈ es, acc.getD e.1 0 = 0) :
    coefficients size es acc = .ok none ∧ (∃ e ∈ es, e.2.rational? = none) ∨
      ∃ cs, coefficients size es acc = .ok (some cs) ∧ cs.length = size ∧
        (∀ d, d ∉ es.map Prod.fst → cs.getD d 0 = acc.getD d 0) ∧
        (∀ e ∈ es, ∃ q, e.2.rational? = some q ∧ cs.getD e.1 0 = -q) ∧
        ∀ x v, x.length = size → (SumsTo x es v ↔ dot cs x = dot acc x - v) := by
  induction es generalizing acc with
  | nil =>
    refine .inr ⟨acc, rfl, length, by simp, by simp, fun x v _ => ?_⟩
    rw [Terms.sumsTo_nil, eq_sub_iff_add_eq, add_eq_left]
  | cons e es ih =>
    obtain ⟨d, c⟩ := e
    have within : d < size := inside (d, c) (by simp)
    rw [map_cons, nodup_cons] at nodup
    rw [coefficients, if_neg (not_le.2 within)]
    cases value : c.rational? with
    | none => exact .inl ⟨rfl, (d, c), by simp, value⟩
    | some q =>
      -- the dimensions to come are still zero, as no dimension comes twice
      have fresh' : ∀ e ∈ es, (acc.set d (-q)).getD e.1 0 = 0 := by
        intro e mem
        have ne : e.1 ≠ d := fun same => nodup.1 (mem_map.2 ⟨e, mem, same⟩)
        rw [getD_set_of_ne ne, fresh e (by simp [mem])]
      have start : acc.getD d 0 = 0 := fresh (d, c) (by simp)
      have length' : (acc.set d (-q)).length = size := by simpa using length
      rcases ih length' (fun e mem => inside e (by simp [mem])) nodup.2 fresh' with
        ⟨none, e, mem, infinite⟩ | ⟨cs, run, width, rest, values, sums⟩
      · exact .inl ⟨none, e, by simp [mem], infinite⟩
      · refine .inr ⟨cs, run, width, fun e notMem => ?_, ?_, fun x v hx => ?_⟩
        · rw [map_cons, mem_cons, not_or] at notMem
          rw [rest e notMem.2, getD_set_of_ne notMem.1]
        · refine forall_mem_cons.2 ⟨⟨q, value, ?_⟩, values⟩
          rw [rest d nodup.1, getD_set_self (by omega)]
        · rw [Terms.sumsTo_cons]
          have change : dot (acc.set d (-q)) x = dot acc x - q * x.getD d 0 := by
            rw [dot_set (by omega), start]
            ring
          constructor
          · rintro ⟨p, has, sum⟩
            rw [(Coefficient.has_of_rational? value).1 has] at sum
            rw [(sums x _ hx).1 sum, change]
            ring
          · intro equal
            refine ⟨q, (Coefficient.has_of_rational? value).2 rfl, (sums x _ hx).2 ?_⟩
            rw [equal, change]
            ring

theorem exists_coefficients {f : LinearForm} (valid : f.Valid) (below : f.Below s.size)
    (finite : ∀ e ∈ f.nonzero, e.2.rational? ≠ none) :
    ∃ cs, coefficients s.size f.nonzero (replicate s.size 0) = .ok (some cs) ∧
      cs.length = s.size ∧ (∀ d, d ∉ f.nonzero.map Prod.fst → cs.getD d 0 = 0) ∧
      (∀ e ∈ f.nonzero, ∃ q, e.2.rational? = some q ∧ cs.getD e.1 0 = -q) ∧
      ∀ x, x.length = s.size → ∀ v, SumsTo x f.nonzero v ↔ dot cs x = -v := by
  rcases coefficients_spec (by simp) below (valid.nodup.sublist (filter_sublist.map _))
      (fun e _ => getD_replicate_zero s.size e.1) with
    ⟨-, e, mem, infinite⟩ | ⟨cs, run, width, others, values, sums⟩
  · exact absurd infinite (finite e mem)
  · refine ⟨cs, run, width, fun d other => ?_, values, fun x length v => ?_⟩
    · rw [others d other, getD_replicate_zero]
    · rw [sums x v length, dot_replicate_zero, zero_sub]

/-! ### What a comparison implies -/

variable {lo hi : ExtRat} {k : Rat} {comparison : Comparison}
  {modulus : Option Number} {bs : List LinearBound}

theorem holdsAt_upper {relation : BoundRelation} :
    (∀ b ∈ upper cs relation hi, b.holdsAt x = true) ↔
      ∀ h, hi = .fin h → relation.holds (dot cs x) h = true := by
  cases hi <;> simp [upper, holdsAt]

theorem holdsAt_lower :
    (∀ b ∈ lower cs lo, b.holdsAt x = true) ↔ ∀ l, lo = .fin l → l ≤ dot cs x := by
  cases lo <;> simp [lower, holdsAt, holds, dot_map_neg]

def between (cs : List Rat) (lo hi : ExtRat) : List LinearBound :=
  if lo = hi then upper cs .equal hi else upper cs .atMost hi ++ lower cs lo

theorem holdsAt_between_iff (low : lo ≤ .fin k) (high : .fin k ≤ hi) :
    (∀ b ∈ between cs lo hi, b.holdsAt x = true) ↔
      lo ≤ .fin (dot cs x) ∧ .fin (dot cs x) ≤ hi := by
  unfold between
  split
  · rename_i same
    obtain rfl : lo = .fin k := le_antisymm low (same ▸ high)
    rw [← same, holdsAt_upper]
    simp [holds, le_antisymm_iff (b := k), and_comm]
  · rw [forall_mem_append, holdsAt_upper, holdsAt_lower, and_comm]
    refine and_congr ?_ ?_
    · cases lo <;> simp_all
    · cases hi <;> simp_all [holds]

section

variable (found : implied? comparison modulus cs lo hi = some bs)
include found

theorem implied?_cases :
    comparison = .atLeast ∧ bs = upper cs .atMost hi ∨
      comparison = .above ∧ bs = upper cs .below hi ∨
      comparison ≠ .above ∧ (∀ v, comparison.Holds modulus v ↔ v = 0) ∧
        bs = between cs lo hi := by
  cases comparison with
  | atLeast => exact .inl ⟨rfl, by simpa [implied?, eq_comm] using found⟩
  | above => exact .inr (.inl ⟨rfl, by simpa [implied?, eq_comm] using found⟩)
  | equal =>
    exact .inr (.inr ⟨by simp, fun v => .rfl, by simpa [implied?, between, eq_comm] using found⟩)
  | congruent =>
    -- only the modulus zero, or none, makes a congruence an equation
    cases modulus with
    | none =>
      exact .inr (.inr ⟨by simp, fun v => .rfl, by simpa [implied?, between, eq_comm] using found⟩)
    | some m =>
      by_cases zero : m.isZero = true
      · refine .inr (.inr ⟨by simp, fun v => ?_, ?_⟩)
        · rw [Comparison.Holds, ExtRat.isZero_iff.1 zero]
          simp [ExtRat.mul]
        · simpa [implied?, zero, between, eq_comm] using found
      · simp [implied?, zero] at found
  | notEqual => simp [implied?] at found

theorem of_mem_implied? {P : LinearBound → Prop}
    (above : ∀ relation h, (relation = .below → comparison = .above) → P ⟨cs, h, relation⟩)
    (below : ∀ l, P ⟨cs.map (- ·), l, .atMost⟩) : ∀ b ∈ bs, P b := by
  have fromUpper (relation : BoundRelation) (strict : relation = .below → comparison = .above) :
      ∀ b ∈ upper cs relation hi, P b := by
    cases hi <;> simp [upper, above _ _ strict]
  rcases implied?_cases found with ⟨rfl, rfl⟩ | ⟨rfl, rfl⟩ | ⟨-, -, rfl⟩
  · exact fromUpper _ (by simp)
  · exact fromUpper _ (by simp)
  · unfold between
    split
    · exact fromUpper _ (by simp)
    · refine forall_mem_append.2 ⟨fromUpper _ (by simp), ?_⟩
      cases lo <;> simp [lower, below]

theorem coeffs_of_mem_implied? (same : P cs) (negated : P (cs.map (- ·))) : ∀ b ∈ bs, P b.coeffs :=
  of_mem_implied? found (fun _ _ _ => same) fun _ => negated

end

theorem exists_highest (low : lo ≤ .fin q) (high : .fin q ≤ hi) (t : Rat) :
    ∃ k, lo ≤ .fin k ∧ .fin k ≤ hi ∧ (hi = .fin k ∨ t < k) := by
  cases hi with
  | fin h => exact ⟨h, low.trans high, le_rfl, .inl rfl⟩
  | posInf =>
    refine ⟨max q (t + 1), low.trans (ExtRat.fin_le_fin.2 (le_max_left _ _)), ExtRat.le_posInf _,
      .inr ?_⟩
    exact (lt_add_one t).trans_le (le_max_right _ _)
  | negInf => exact absurd high ExtRat.not_fin_le_negInf

theorem holdsAt_implied?_iff (found : implied? comparison modulus cs lo hi = some bs)
    (low : lo ≤ .fin q) (high : .fin q ≤ hi) :
    (∀ b ∈ bs, b.holdsAt x = true) ↔
      ∃ k, lo ≤ .fin k ∧ .fin k ≤ hi ∧ comparison.Holds modulus (k - dot cs x) := by
  obtain ⟨k, above, below, highest⟩ := exists_highest low high (dot cs x)
  rcases implied?_cases found with ⟨rfl, rfl⟩ | ⟨rfl, rfl⟩ | ⟨-, zero, rfl⟩
  · simp only [holdsAt_upper, holds, decide_eq_true_eq, Comparison.Holds, sub_nonneg]
    refine ⟨fun holds => ⟨k, above, below, highest.elim (holds k) le_of_lt⟩, ?_⟩
    rintro ⟨l, -, le, less⟩ h rfl
    exact less.trans le
  · simp only [holdsAt_upper, holds, decide_eq_true_eq, Comparison.Holds, sub_pos]
    refine ⟨fun holds => ⟨k, above, below, highest.elim (holds k) id⟩, ?_⟩
    rintro ⟨l, -, le, less⟩ h rfl
    exact less.trans_le le
  · rw [holdsAt_between_iff low high]
    simp [zero, sub_eq_zero]

theorem holdsAt_of_mem_implied? (found : implied? comparison modulus cs lo hi = some bs)
    {e : ExtRat} (low : lo ≤ e) (high : e ≤ hi)
    (admits : comparison.Admits modulus (.fin (-dot cs x) + e)) : ∀ b ∈ bs, b.holdsAt x = true := by
  cases e with
  | fin k =>
    refine (holdsAt_implied?_iff found low high).2 ⟨k, low, high, ?_⟩
    rwa [ExtRat.fin_add_fin, neg_add_eq_sub] at admits
  | negInf =>
    obtain rfl : comparison = .notEqual := admits
    simp [implied?] at found
  | posInf =>
    -- without an upper bound an inequality implies nothing
    obtain rfl : hi = .posInf := le_antisymm (ExtRat.le_posInf hi) high
    rcases admits with rfl | rfl | rfl
    · obtain rfl : [] = bs := by simpa [implied?, upper] using found
      simp
    · obtain rfl : [] = bs := by simpa [implied?, upper] using found
      simp
    · simp [implied?] at found

/-! ### Relaxation -/

variable {request : Request} {risk : Prop} {c : LinearConstraint} {bounds : List Interval}

theorem ensures_relax (valid : c.form.Valid) (length : bounds.length = s.size)
    (ranges : ∀ i ∈ bounds, i.Valid) (below : c.form.Below s.size)
    (danger : ∀ g, c.form.quasilinearize bounds .rational = .ok g →
      (∃ e ∈ g.nonzero, e.2.rational? = none) → risk) :
    Ensures request risk (relax c bounds s) fun result =>
      (∀ bs, result = some bs → ∀ b ∈ bs, b.coeffs.length = s.size) ∧
        ∀ x, s.IsPoint x → InBox bounds x → c.Admits x →
          ∃ bs, result = some bs ∧ ∀ b ∈ bs, b.holdsAt x = true := by
  unfold relax
  split
  · rename_i unsatisfiable
    refine ensures_pure ⟨by simp, fun x _ _ admits => ?_⟩
    exact absurd admits (LinearConstraint.not_admits_of_isUnsatisfiable unsatisfiable x)
  · obtain ⟨g, form, validG, -, belowG, -, -, values⟩ :=
      quasilinearize_spec Kind.isOutward_rational valid (length.symm ▸ below) ranges
    refine .ofExceptBind form ?_
    refine .markInexactIf ?_
    rcases coefficients_spec (by simp) (length ▸ belowG)
        (validG.nodup.sublist (filter_sublist.map _))
        (fun e _ => getD_replicate_zero s.size e.1) with
      ⟨none, infinite⟩ | ⟨cs, run, width, -, finite, sums⟩
    · -- an infinite coefficient is reported, and then nothing is implied
      refine .ofExceptBind none ?_
      refine (ensures_raise (danger g form infinite) _ _ trivial :
        Ensures request risk _ fun _ => True).bind fun _ _ => ?_
      exact ensures_pure ⟨by simp, by simp⟩
    · refine .ofExceptBind run ?_
      dsimp only
      split
      · rename_i bs found
        refine ensures_pure ⟨fun ds normal => ?_, fun x point box admits => ?_⟩
        · have implied := coeffs_of_mem_implied? (P := (·.length = s.size)) found width
            (by simpa using width)
          exact coeffs_of_mem_normalizeAll (P := (·.length = s.size)) (by simp) normal implied
        · -- the value of the form without ranges is the constant less the combination
          obtain ⟨r, reaches, _⟩ := admits
          obtain ⟨k, t, constant, sum, rfl⟩ :=
            reaches_iff_nonzero.1 (values x box r reaches)
          obtain ⟨v, rfl, finiteSum⟩ := sum.sumsTo fun e mem none => by
            obtain ⟨q, number, -⟩ := finite e mem
            simp [none] at number
          have dot := (sums x v point.length).1 finiteSum
          rw [dot_replicate_zero, zero_sub] at dot
          have member := Interval.spans_convert_rational.2 constant
          refine (holdsAt_normalizeAll fun b _ => holdsAt_normalize (.inl point)).1 ?_
          refine holdsAt_of_mem_implied? found member.1 member.2 ?_
          rwa [dot, neg_neg]
      · exact .markInexactBind (ensures_pure ⟨by simp, by simp⟩)

/-! ### Equations on a real dimension -/

def OnReal (s : Space) (b : LinearBound) : Prop :=
  ∃ d c, b.coeffs[d]? = some c ∧ c ≠ 0 ∧ s.isInt d = false

section

variable (real : b.OnReal s)
include real

theorem OnReal.allZero_eq_false : allZero b.coeffs = false := by
  obtain ⟨d, c, found, nonzero, -⟩ := real
  have := mem_of_getElem? found
  simp only [allZero, all_eq_false, decide_eq_true_eq]
  exact ⟨c, this, nonzero⟩

theorem OnReal.scale (nonzero : q ≠ 0) : (b.scale q).OnReal s := by
  obtain ⟨d, c, found, matters, notInt⟩ := real
  exact ⟨d, c * q, by simp [LinearBound.scale, found], mul_ne_zero matters nonzero, notInt⟩

theorem OnReal.primitive : b.primitive.OnReal s := by
  obtain ⟨p, q, hp, hq, same⟩ := exists_primitive_eq real.allZero_eq_false
  exact same ▸ (real.scale hp.ne').scale hq.ne'

theorem OnReal.trivial?_eq_none : b.trivial? = none := by
  rw [trivial?, real.allZero_eq_false, if_neg Bool.false_ne_true]

theorem OnReal.normalize_eq : b.normalize s = (true, b.primitive) := by
  have mixed : b.primitive.isIntegral s = false := by
    obtain ⟨d, c, found, matters, notInt⟩ := real.primitive
    refine Bool.eq_false_iff.2 fun integral => ?_
    have := all_eq_true.1 integral (c, d) (mem_zipIdx_iff_getElem?.2 found)
    simp [matters, notInt] at this
  rw [normalize, real.trivial?_eq_none]
  rw [mixed, if_neg Bool.false_ne_true]

end

theorem normalizeAll_of_onReal (real : ∀ b ∈ bs, b.OnReal s) :
    normalizeAll s bs = some (bs.map primitive) := by
  induction bs with
  | nil => rfl
  | cons b bs ih =>
    have first := real b (by simp)
    rw [normalizeAll, first.normalize_eq, ih fun c mem => real c (by simp [mem])]
    simp [first.primitive.trivial?_eq_none]

theorem holds_iff_exists_constant (sums : ∀ v, SumsTo x c.form.nonzero v ↔ dot cs x = -v) :
    c.Holds x ↔ ∃ k, (c.form.constant.toInterval.convert .rational).lo.value ≤ .fin k ∧
      .fin k ≤ (c.form.constant.toInterval.convert .rational).hi.value ∧
        c.comparison.Holds c.modulus (k - dot cs x) := by
  constructor
  · intro h
    obtain ⟨v, takes, compares⟩ := h
    obtain ⟨k, constant, sum⟩ := takes_iff_nonzero.1 takes
    have member := Interval.has_convert_rational.2 constant
    refine ⟨k, member.1, member.2, ?_⟩
    rwa [(sums _).1 sum, sub_neg_eq_add, add_sub_cancel]
  · intro h
    obtain ⟨k, low, high, compares⟩ := h
    have constant : c.form.constant.Has k := Interval.has_convert_rational.1 ⟨low, high⟩
    refine ⟨k - dot cs x, takes_iff_nonzero.2 ⟨k, constant, (sums _).2 ?_⟩, compares⟩
    ring

theorem holdsAt_implied?_iff_holds (inhabited : ∃ q, c.form.constant.Has q)
    (sums : ∀ v, SumsTo x c.form.nonzero v ↔ dot cs x = -v)
    (found : implied? c.comparison c.modulus cs
      (c.form.constant.toInterval.convert .rational).lo.value
      (c.form.constant.toInterval.convert .rational).hi.value = some bs) :
    (∀ b ∈ bs, b.holdsAt x = true) ↔ c.Holds x := by
  obtain ⟨k, has⟩ := inhabited
  have member := Interval.has_convert_rational.2 has
  rw [holdsAt_implied?_iff found member.1 member.2, holds_iff_exists_constant sums]

theorem relax_eq (possible : c.isUnsatisfiable = false) (quasilinear : c.form.isQuasilinear = true)
    (run : coefficients s.size c.form.nonzero (replicate s.size 0) = .ok (some cs)) :
    relax c bounds s = (implied? c.comparison c.modulus cs
        (c.form.constant.toInterval.convert .rational).lo.value
        (c.form.constant.toInterval.convert .rational).hi.value).elim
      (do
        markInexact
        return some []) fun bs => return normalizeAll s bs := by
  have form : ofExcept (c.form.quasilinearize bounds .rational) = pure c.form := by
    rw [quasilinearize, if_pos quasilinear]
    rfl
  have read : ofExcept (coefficients s.size c.form.nonzero (replicate s.size 0)) =
      pure (some cs) := by
    rw [run]
    rfl
  rw [relax, possible, form, pure_bind, quasilinear]
  rw [read, pure_bind]
  dsimp only
  cases implied? c.comparison c.modulus cs (c.form.constant.toInterval.convert .rational).lo.value
    (c.form.constant.toInterval.convert .rational).hi.value <;> rfl

theorem ensures_relax_equation (valid : c.form.Valid) (below : c.form.Below s.size)
    (equation : c.comparison = .equal) (quasilinear : c.form.isQuasilinear = true)
    (finite : ∀ e ∈ c.form.nonzero, e.2.rational? ≠ none)
    (real : ∃ e ∈ c.form.nonzero, s.isInt e.1 = false) (inhabited : ∃ q, c.form.constant.Has q) :
    Ensures request risk (relax c bounds s) fun result =>
      ∃ bs, result = some bs ∧ (∀ b ∈ bs, b.coeffs.length = s.size ∧ b.relation ≠ .below) ∧
        ∀ x, x.length = s.size → ((∀ b ∈ bs, b.holdsAt x = true) ↔ c.Holds x) := by
  obtain ⟨e, inForm, notInt⟩ := real
  have possible : c.isUnsatisfiable = false := by
    have : c.form.isConstant = false := by
      rw [isConstant, isEmpty_eq_false_iff]
      exact ne_nil_of_mem inForm
    rw [LinearConstraint.isUnsatisfiable, this, Bool.false_and]
  obtain ⟨cs, run, width, -, values, sums⟩ := exists_coefficients valid below finite
  let constant := c.form.constant.toInterval.convert .rational
  have found : implied? c.comparison c.modulus cs constant.lo.value constant.hi.value =
      some (between cs constant.lo.value constant.hi.value) := by
    rw [equation]
    rfl
  -- the column of the real dimension is not zero, so nothing is rounded or dropped
  obtain ⟨q, number, value⟩ := values e inForm
  have column : cs[e.1]? = some (-q) := by
    have inside : e.1 < cs.length := width ▸ below e inForm
    rw [getElem?_eq_getElem inside, ← value, getD_eq_getElem _ _ inside]
  have matters : -q ≠ 0 := by
    have nonzero := (mem_nonzero.1 inForm).2
    rw [Bool.eq_false_iff, Ne, Coefficient.isZero_of_rational? number] at nonzero
    exact neg_ne_zero.2 nonzero
  have real := of_mem_implied? (P := (·.OnReal s)) found
    (fun _ _ _ => ⟨e.1, -q, column, matters, notInt⟩)
    fun _ => ⟨e.1, - -q, by simp [column], neg_ne_zero.2 matters, notInt⟩
  rw [relax_eq possible quasilinear run, found, Option.elim_some, normalizeAll_of_onReal real]
  refine ensures_pure ⟨_, rfl, ?_, fun x length => ?_⟩
  · rw [forall_mem_map]
    refine of_mem_implied? found (fun relation h strict => ?_) fun l => ?_
    · refine ⟨by rw [length_primitive, width], fun below => ?_⟩
      rw [strict below] at equation
      cases equation
    · exact ⟨by simp [length_primitive, width], by simp [primitive, scale]⟩
  · rw [forall_mem_map, ← holdsAt_implied?_iff_holds inhabited (sums x length) found]
    refine forall₂_congr fun b mem => ?_
    rw [holdsAt_primitive (real b mem).allZero_eq_false]

end LinearBound

end Enclosure
