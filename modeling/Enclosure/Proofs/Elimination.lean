import Enclosure.Domain.Polyhedron.Elimination
import Enclosure.Proofs.Rows
import Enclosure.Proofs.Running
import Mathlib.Tactic.FieldSimp

/-!
# Elimination is projection

Each row on which a column matters bounds the value of that column, from above or from below, once
the other columns are given.
-/

namespace Enclosure

open List Row

/-! ### Room between bounds -/

private theorem under_total (l g : Rat × Bool) :
    (∀ t, Under l.2 l.1 t → Under g.2 g.1 t) ∨ ∀ t, Under g.2 g.1 t → Under l.2 l.1 t := by
  rcases lt_trichotomy l.1 g.1 with less | equal | greater
  · exact .inr fun t h => under_of_lt (lt_of_lt_of_le less h.le)
  · rw [equal]
    cases hl : l.2
    · exact .inr fun t h => h.le
    · refine .inl fun t h => under_of_lt h
  · exact .inl fun t h => under_of_lt (lt_of_lt_of_le greater h.le)

private theorem exists_strongest (l : Rat × Bool) (lower : List (Rat × Bool)) :
    ∃ g ∈ l :: lower, ∀ t, Under g.2 g.1 t → ∀ b ∈ l :: lower, Under b.2 b.1 t := by
  induction lower generalizing l with
  | nil => exact ⟨l, by simp, by simp⟩
  | cons m lower ih =>
    obtain ⟨g, mem, strongest⟩ := ih m
    rcases under_total l g with h | h
    · exact ⟨l, by simp, fun t ht => forall_mem_cons.2 ⟨ht, strongest t (h t ht)⟩⟩
    · exact ⟨g, mem_cons_of_mem _ mem, fun t ht =>
        forall_mem_cons.2 ⟨h t ht, strongest t ht⟩⟩

theorem exists_between (lower upper : List (Rat × Bool))
    (compatible : ∀ l ∈ lower, ∀ u ∈ upper, Under (l.2 || u.2) l.1 u.1) :
    ∃ t, (∀ l ∈ lower, Under l.2 l.1 t) ∧ ∀ u ∈ upper, Under u.2 t u.1 := by
  -- upper bounds are lower bounds of the opposite value
  have above (u : Rat × Bool) (upper : List (Rat × Bool)) :
      ∃ h ∈ u :: upper, ∀ t, Under h.2 t h.1 → ∀ b ∈ u :: upper, Under b.2 t b.1 := by
    obtain ⟨g, mem, strongest⟩ := exists_strongest (-u.1, u.2) (upper.map fun b => (-b.1, b.2))
    change g ∈ (u :: upper).map fun b => (-b.1, b.2) at mem
    obtain ⟨h, inList, rfl⟩ := mem_map.1 mem
    refine ⟨h, inList, fun t ht b hb => ?_⟩
    have mapped : (-b.1, b.2) ∈ (u :: upper).map fun b => (-b.1, b.2) := mem_map_of_mem hb
    exact under_neg.1 (strongest (-t) (under_neg.2 ht) _ mapped)
  cases lower with
  | nil =>
    cases upper with
    | nil => exact ⟨0, by simp, by simp⟩
    | cons u upper =>
      obtain ⟨h, -, strongest⟩ := above u upper
      exact ⟨h.1 - 1, by simp, strongest _ (under_of_lt (by linarith))⟩
  | cons l lower =>
    obtain ⟨g, inLower, strongest⟩ := exists_strongest l lower
    cases upper with
    | nil => exact ⟨g.1 + 1, strongest _ (under_of_lt (by linarith)), by simp⟩
    | cons u upper =>
      obtain ⟨h, inUpper, strongest'⟩ := above u upper
      have room := compatible g inLower h inUpper
      rcases room.le.lt_or_eq with _ | equal
      · exact ⟨(g.1 + h.1) / 2, strongest _ (under_of_lt (by linarith)),
          strongest' _ (under_of_lt (by linarith))⟩
      · -- bounds that meet are both loose, and leave exactly one value
        have loose : (g.2 || h.2) = false := by
          by_contra strict
          rw [Bool.not_eq_false] at strict
          rw [strict, equal] at room
          exact lt_irrefl _ room
        rw [Bool.or_eq_false_iff] at loose
        refine ⟨g.1, strongest _ ?_, strongest' _ ?_⟩
        · rw [loose.1]
          exact le_refl g.1
        · rw [loose.2]
          exact equal.le

/-! ### One column -/

namespace Row

def limit (col : Nat) (y : List Rat) (r : Row) : Rat :=
  (r.bound - dot (r.coeffs.eraseIdx col) y) / r.coeff col

variable {r s : Row} {col n : Nat} {y : List Rat} {t : Rat}

section

variable (width : r.coeffs.length = n + 1) (inside : col < n + 1) (length : y.length = n)
include width inside length

private theorem under_limit :
    r.holdsAt (y.insertIdx col t) = true ↔
      Under r.strict (r.coeff col * t) (r.bound - dot (r.coeffs.eraseIdx col) y) := by
  rw [holdsAt_iff, dot_insertIdx (by omega) (by omega), under_sub_right, add_comm]
  rfl

theorem holdsAt_insertIdx_of_pos (pos : 0 < r.coeff col) :
    r.holdsAt (y.insertIdx col t) = true ↔ Under r.strict t (r.limit col y) := by
  rw [under_limit width inside length, ← under_div_right pos, mul_div_cancel_left₀ _ pos.ne']
  rfl

theorem holdsAt_insertIdx_of_neg (neg : r.coeff col < 0) :
    r.holdsAt (y.insertIdx col t) = true ↔ Under r.strict (r.limit col y) t := by
  rw [under_limit width inside length, ← under_div_right (neg_pos.mpr neg), div_neg, div_neg,
    under_neg, mul_div_cancel_left₀ _ neg.ne]
  rfl

theorem holdsAt_insertIdx_of_zero (zero : r.coeff col = 0) :
    r.holdsAt (y.insertIdx col t) = true ↔ (r.eraseColumn col).holdsAt y = true := by
  rw [holdsAt_iff, holdsAt_iff, dot_insertIdx (by omega) (by omega)]
  change Under r.strict (r.coeff col * t + _) _ ↔ Under r.strict _ _
  rw [zero, zero_mul, zero_add]
  rfl

end

private theorem eraseIdx_zipWith {f : Rat → Rat → Rat} (cs ds : List Rat) (col : Nat) :
    (zipWith f cs ds).eraseIdx col =
      zipWith f (cs.eraseIdx col) (ds.eraseIdx col) := by
  induction cs generalizing ds col with
  | nil => simp
  | cons c cs ih =>
    cases ds with
    | nil => simp
    | cons d ds =>
      cases col with
      | zero => simp
      | succ col => simp [ih]

theorem holdsAt_cancel (same : r.coeffs.length = s.coeffs.length) (pos : 0 < r.coeff col)
    (neg : s.coeff col < 0) :
    (cancel col r s).holdsAt y = true ↔
      Under (r.strict || s.strict) (s.limit col y) (r.limit col y) := by
  -- both limits are multiplied by the product of the two coefficients, which is positive
  have product : 0 < r.coeff col * -s.coeff col := mul_pos pos (neg_pos.mpr neg)
  have lower : s.limit col y * (r.coeff col * -s.coeff col) =
      (dot (s.coeffs.eraseIdx col) y - s.bound) * r.coeff col := by
    unfold limit
    field_simp [neg.ne]
    ring
  have upper : r.limit col y * (r.coeff col * -s.coeff col) =
      (r.bound - dot (r.coeffs.eraseIdx col) y) * -s.coeff col := by
    unfold limit
    field_simp
  have widths : (r.coeffs.eraseIdx col).length = (s.coeffs.eraseIdx col).length := by
    rw [length_eraseIdx, length_eraseIdx, same]
  have combined : dot (cancel col r s).coeffs y =
      dot (r.coeffs.eraseIdx col) y * -s.coeff col +
        dot (s.coeffs.eraseIdx col) y * r.coeff col := by
    rw [cancel, eraseIdx_zipWith, dot_zipWith widths, ratAbs_eq, ratAbs_eq, abs_of_pos pos,
      abs_of_neg neg]
  have bound : (cancel col r s).bound = r.bound * -s.coeff col + s.bound * r.coeff col := by
    rw [cancel, ratAbs_eq, ratAbs_eq, abs_of_pos pos, abs_of_neg neg]
  rw [← under_mul_right product, lower, upper, holdsAt_iff, combined, bound]
  exact under_iff_of_sub_eq (by ring)

end Row

namespace Rows

variable {request : Request} {rows left : List Row} {col n : Nat} {x y z : List Rat}
  {keep : List Bool} {cost : Nat → Nat}

section

variable (wide : ∀ r ∈ rows, r.coeffs.length = n + 1)
include wide

private theorem solves_cancel :
    Solves ((upperRows col rows).flatMap fun r => (lowerRows col rows).map (cancel col r)) y ↔
      ∀ r ∈ upperRows col rows, ∀ s ∈ lowerRows col rows,
        Under (s.strict || r.strict) (s.limit col y) (r.limit col y) := by
  have each (r s : Row) (hr : r ∈ upperRows col rows) (hs : s ∈ lowerRows col rows) :
      (cancel col r s).holdsAt y = true ↔
        Under (s.strict || r.strict) (s.limit col y) (r.limit col y) := by
    obtain ⟨inRows, pos⟩ := mem_filter.1 hr
    obtain ⟨inRows', neg⟩ := mem_filter.1 hs
    rw [Bool.or_comm]
    exact holdsAt_cancel ((wide r inRows).trans (wide s inRows').symm) (by simpa using pos)
      (by simpa using neg)
  simp only [Solves, mem_flatMap, mem_map]
  constructor
  · exact fun h r hr s hs => (each r s hr hs).1 (h _ ⟨r, hr, s, hs, rfl⟩)
  · rintro h _ ⟨r, hr, s, hs, rfl⟩
    exact (each r s hr hs).2 (h r hr s hs)

theorem solves_eliminate (inside : col < n + 1) (length : y.length = n) :
    Solves (eliminate col rows) y ↔ ∃ t, Solves rows (y.insertIdx col t) := by
  unfold eliminate
  rw [solves_tidy, solves_append, solves_cancel wide]
  constructor
  · -- any value between the lower and the upper bounds will do
    rintro ⟨others, compatible⟩
    obtain ⟨t, above, below⟩ := exists_between
      ((lowerRows col rows).map fun s => (s.limit col y, s.strict))
      ((upperRows col rows).map fun r => (r.limit col y, r.strict))
      (by simpa using fun s hs r hr => compatible r hr s hs)
    refine ⟨t, fun r mem => ?_⟩
    rcases lt_trichotomy (r.coeff col) 0 with neg | zero | pos
    · have isLower : r ∈ lowerRows col rows := mem_filter.2 ⟨mem, by simpa using neg⟩
      rw [holdsAt_insertIdx_of_neg (wide r mem) inside length neg]
      exact above _ (mem_map_of_mem isLower)
    · have isOther : r.eraseColumn col ∈ (rows.filter (·.coeff col = 0)).map (eraseColumn col) :=
        mem_map_of_mem (mem_filter.2 ⟨mem, by simpa using zero⟩)
      rw [holdsAt_insertIdx_of_zero (wide r mem) inside length zero]
      exact others _ isOther
    · have isUpper : r ∈ upperRows col rows := mem_filter.2 ⟨mem, by simpa using pos⟩
      rw [holdsAt_insertIdx_of_pos (wide r mem) inside length pos]
      exact below _ (mem_map_of_mem isUpper)
  · -- a value that solves the rows is itself between the bounds
    rintro ⟨t, solves⟩
    constructor
    · intro r mem
      obtain ⟨s, inOthers, rfl⟩ := mem_map.1 mem
      obtain ⟨inRows, zero⟩ := mem_filter.1 inOthers
      rw [← holdsAt_insertIdx_of_zero (wide s inRows) inside length (by simpa using zero)]
      exact solves s inRows
    · intro r hr s hs
      obtain ⟨inRows, pos⟩ := mem_filter.1 hr
      obtain ⟨inRows', neg⟩ := mem_filter.1 hs
      have above := (holdsAt_insertIdx_of_pos (wide r inRows) inside length
        (by simpa using pos)).1 (solves r inRows)
      have below := (holdsAt_insertIdx_of_neg (wide s inRows') inside length
        (by simpa using neg)).1 (solves s inRows')
      exact below.trans above

theorem width_eliminate (inside : col < n + 1) : ∀ r ∈ eliminate col rows, r.coeffs.length = n := by
  refine width_tidy fun r mem => ?_
  rcases mem_append.1 mem with other | pair
  · obtain ⟨s, inOthers, rfl⟩ := mem_map.1 other
    have width := wide s (mem_of_mem_filter inOthers)
    simp only [eraseColumn, length_eraseIdx]
    split <;> omega
  · obtain ⟨s, hs, mapped⟩ := mem_flatMap.1 pair
    obtain ⟨t, ht, rfl⟩ := mem_map.1 mapped
    have width := wide s (mem_of_mem_filter hs)
    have width' := wide t (mem_of_mem_filter ht)
    simp only [cancel, length_eraseIdx, length_zipWith]
    split <;> omega

end

/-! ### All columns that are not kept -/

def keptOf : List Bool → List Rat → List Rat
  | k :: keep, x :: xs => if k then x :: keptOf keep xs else keptOf keep xs
  | _, _ => []

theorem length_keptOf (same : x.length = keep.length) :
    (keptOf keep x).length = keep.count true := by
  induction keep generalizing x with
  | nil => simp [keptOf]
  | cons k keep ih =>
    cases x with
    | nil => simp at same
    | cons v x =>
      have ih := ih (by simpa using same)
      cases k <;> simp [keptOf, ih]

theorem keptOf_insertIdx (dropped : keep[col]? = some false) (reach : col ≤ y.length) (t : Rat) :
    keptOf keep (y.insertIdx col t) = keptOf (keep.eraseIdx col) y := by
  induction col generalizing keep y with
  | zero =>
    cases keep with
    | nil => simp at dropped
    | cons k keep =>
      obtain rfl : k = false := by simpa using dropped
      simp [keptOf]
  | succ col ih =>
    cases keep with
    | nil => simp at dropped
    | cons k keep =>
      cases y with
      | nil => simp at reach
      | cons v y =>
        have ih : keptOf keep (y.insertIdx col t) = keptOf (keep.eraseIdx col) y :=
          ih (by simpa using dropped) (by simpa using reach)
        cases k <;> simp [keptOf, ih]

theorem keptOf_eq_self (all : ∀ k ∈ keep, k = true) (same : x.length = keep.length) :
    keptOf keep x = x := by
  induction keep generalizing x with
  | nil => simpa [keptOf] using (eq_nil_of_length_eq_zero same).symm
  | cons k keep ih =>
    cases x with
    | nil => simp at same
    | cons v x =>
      have ih := ih (fun b hb => all b (by simp [hb])) (by simpa using same)
      simp [keptOf, all k (by simp), ih]

theorem keptOf_append {left : List Bool} {u v : List Rat} (same : u.length = left.length) :
    keptOf (left ++ keep) (u ++ v) = keptOf left u ++ keptOf keep v := by
  induction left generalizing u with
  | nil =>
    obtain rfl := eq_nil_of_length_eq_zero same
    simp [keptOf]
  | cons k left ih =>
    cases u with
    | nil => simp at same
    | cons t u =>
      have ih := ih (by simpa using same)
      cases k <;> simp [keptOf, ih]

theorem keptOf_replicate_false (m : Nat) (v : List Rat) : keptOf (replicate m false) v = [] := by
  induction m generalizing v with
  | zero => simp [keptOf]
  | succ m ih =>
    cases v with
    | nil => simp [keptOf]
    | cons t v => simp [replicate_succ, keptOf, ih]

structure IsProjection (rows : List Row) (keep : List Bool) (left : List Row) : Prop where
  width : ∀ r ∈ left, r.coeffs.length = keep.count true
  solves_iff : ∀ z, z.length = keep.count true →
    (Solves left z ↔ ∃ x, x.length = keep.length ∧ Solves rows x ∧ keptOf keep x = z)
  isTidy : IsTidy left

theorem IsProjection.of_none_kept (h : IsProjection rows keep left) (none : keep.count true = 0) :
    (¬ ∃ x, x.length = keep.length ∧ Solves rows x) ∧ left = [.never 0] ∨
      (∃ x, x.length = keep.length ∧ Solves rows x) ∧ left = [] := by
  have solvable : Solves left [] ↔ ∃ x, x.length = keep.length ∧ Solves rows x := by
    rw [h.solves_iff [] none.symm]
    refine exists_congr fun x => and_congr_right fun length => and_iff_left ?_
    exact eq_nil_of_length_eq_zero ((length_keptOf length).trans none)
  rcases h.isTidy.eq_of_narrow fun r mem => (h.width r mem).trans none with rfl | rfl
  · exact .inl ⟨fun some => not_holdsAt_never 0 [] (by simpa using solvable.2 some), rfl⟩
  · exact .inr ⟨solvable.1 (solves_nil []), rfl⟩

theorem mem_of_cheapest? {ks : List Nat} {k : Nat} (h : cheapest? cost ks = some k) : k ∈ ks := by
  induction ks generalizing k with
  | nil => simp [cheapest?] at h
  | cons l ks ih =>
    rw [cheapest?] at h
    split at h
    · simp_all
    · rename_i m found
      split at h
      · simp only [Option.some.injEq] at h
        simp [← h, ih found]
      · simp_all

theorem eq_nil_of_cheapest? {ks : List Nat} (h : cheapest? cost ks = none) : ks = [] := by
  cases ks with
  | nil => rfl
  | cons k ks =>
    rw [cheapest?] at h
    split at h
    · simp at h
    · split at h <;> simp at h

theorem mem_droppedColumns {k : Nat} : k ∈ droppedColumns keep ↔ keep[k]? = some false := by
  simp only [droppedColumns, mem_filter, mem_range]
  constructor
  · rintro ⟨inside, dropped⟩
    simpa [getElem?_eq_getElem inside] using dropped
  · intro h
    obtain ⟨inside, -⟩ := List.getElem?_eq_some_iff.1 h
    exact ⟨inside, by simp [h]⟩

private theorem isProjection_self (wide : ∀ r ∈ rows, r.coeffs.length = keep.length)
    (isTidy : IsTidy rows) (none : droppedColumns keep = []) : IsProjection rows keep rows := by
  have all : ∀ k ∈ keep, k = true := by
    intro k mem
    obtain ⟨i, -, rfl⟩ := getElem_of_mem mem
    by_contra dropped
    have : i ∈ droppedColumns keep := mem_droppedColumns.2 (by simp_all)
    simp [none] at this
  have count : keep.count true = keep.length := count_eq_length.2 fun k hk => (all k hk).symm
  refine ⟨count.symm ▸ wide, fun z length => ?_, isTidy⟩
  rw [count] at length
  constructor
  · exact fun solves => ⟨z, length, solves, keptOf_eq_self all length⟩
  · rintro ⟨x, same, _, rfl⟩
    rwa [keptOf_eq_self all same]

private theorem IsProjection.step {less : List Row} (dropped : keep[col]? = some false)
    (solves : ∀ y, y.length + 1 = keep.length →
      (Solves less y ↔ ∃ t, Solves rows (y.insertIdx col t)))
    (rest : IsProjection less (keep.eraseIdx col) left) : IsProjection rows keep left := by
  obtain ⟨inside, value⟩ := List.getElem?_eq_some_iff.1 dropped
  have length : (keep.eraseIdx col).length + 1 = keep.length := by
    rw [length_eraseIdx_of_lt inside]
    omega
  have count : (keep.eraseIdx col).count true = keep.count true := by
    rw [← (getElem_cons_eraseIdx_perm inside).count_eq true, value]
    simp
  refine ⟨count ▸ rest.width, fun z hz => ?_, rest.isTidy⟩
  rw [rest.solves_iff z (count.trans hz.symm).symm]
  constructor
  · rintro ⟨y, _, solvesLess, rfl⟩
    obtain ⟨t, solvesRows⟩ := (solves y (by omega)).1 solvesLess
    refine ⟨y.insertIdx col t, ?_, solvesRows, keptOf_insertIdx dropped (by omega) t⟩
    rw [length_insertIdx_of_le_length (by omega)]
    omega
  · rintro ⟨x, _, solvesRows, rfl⟩
    -- the value that was dropped is the one to insert again
    have back : (x.eraseIdx col).insertIdx col (x.getD col 0) = x := by
      rw [getD_eq_getElem _ _ (by omega)]
      exact insertIdx_eraseIdx_getElem (by omega)
    have short : (x.eraseIdx col).length + 1 = keep.length := by
      rw [length_eraseIdx_of_lt (by omega)]
      omega
    refine ⟨x.eraseIdx col, by omega, (solves _ short).2 ⟨x.getD col 0, back.symm ▸ solvesRows⟩, ?_⟩
    rw [← keptOf_insertIdx dropped (by omega) (x.getD col 0), back]

private theorem isProjection_never (contra : rows.any (·.isContradiction) = true) :
    IsProjection rows keep [.never (keep.count true)] := by
  refine ⟨by simp [never], fun z _ => ?_, isTidy_never _⟩
  constructor
  · intro solves
    exact absurd ((solves_cons.1 solves).1) (not_holdsAt_never _ z)
  · rintro ⟨x, -, solves, -⟩
    exact absurd solves (not_solves_of_any contra)

theorem ensures_eliminateAll (fuel : Nat) (enough : keep.length < fuel)
    (wide : ∀ r ∈ rows, r.coeffs.length = keep.length) (isTidy : IsTidy rows) :
    Op.Ensures request request.Limited (eliminateAll fuel rows keep) fun result =>
      (result = none → request.Limited) ∧
        ∀ left, result = some left → IsProjection rows keep left := by
  -- every round drops one column, so the fuel is not used up before all are dropped
  induction fuel generalizing rows keep with
  | zero => simp at enough
  | succ fuel ih =>
    rw [eliminateAll]
    split
    · rename_i contra
      rw [Bool.and_eq_true] at contra
      refine Op.ensures_pure ⟨by simp, fun left h => ?_⟩
      rw [← Option.some.inj h]
      exact isProjection_never contra.2
    · split
      · rename_i none
        refine Op.ensures_pure ⟨by simp, fun left h => ?_⟩
        rw [← Option.some.inj h]
        exact isProjection_self wide isTidy (eq_nil_of_cheapest? none)
      · rename_i col found
        have dropped := mem_droppedColumns.1 (mem_of_cheapest? found)
        obtain ⟨inside, -⟩ := List.getElem?_eq_some_iff.1 dropped
        have length : (keep.eraseIdx col).length + 1 = keep.length := by
          rw [length_eraseIdx_of_lt inside]
          omega
        split
        · -- an empty system stays empty
          rename_i empty
          obtain rfl : rows = [] := by simpa using empty
          have shorter : (keep.eraseIdx col).length < fuel := by omega
          refine (ih shorter (by simp) isTidy).mono fun result h => ⟨h.1, fun left hl => ?_⟩
          exact (h.2 left hl).step dropped fun y _ => by simp
        · have wide' : ∀ r ∈ rows, r.coeffs.length = (keep.eraseIdx col).length + 1 :=
            fun r hr => (wide r hr).trans length.symm
          have within : col < (keep.eraseIdx col).length + 1 := by omega
          have narrow := width_eliminate wide' within
          refine (Op.ensures_exceedsSize _).bind fun tooLarge limit => ?_
          cases tooLarge with
          | true => exact Op.ensures_pure ⟨fun _ => limit rfl, by simp⟩
          | false =>
            refine (ih (by omega) narrow ⟨_, rfl⟩).mono fun result h => ⟨h.1, fun left hl => ?_⟩
            exact (h.2 left hl).step dropped fun y hy =>
              solves_eliminate wide' within (by omega)

theorem ensures_project (wide : ∀ r ∈ rows, r.coeffs.length = keep.length) :
    Op.Ensures request request.Limited (project rows keep) fun result =>
      (result = none → request.Limited) ∧
        ∀ left, result = some left → IsProjection rows keep left := by
  refine (ensures_eliminateAll _ (by omega) (width_tidy wide) ⟨rows, rfl⟩).mono fun result h => ?_
  refine ⟨h.1, fun left hl => ⟨(h.2 left hl).width, fun z hz => ?_, (h.2 left hl).isTidy⟩⟩
  simp only [(h.2 left hl).solves_iff z hz, solves_tidy]

/-- What elimination leaves has the columns that are kept, and its solutions are the solutions of
the system with only these columns. -/
theorem projection_exact (wide : ∀ r ∈ rows, r.coeffs.length = keep.length) (request : Request) :
    Op.Ensures request request.Limited (project rows keep) fun result =>
      (request.options.maxObjectSize = 0 → ∃ left, result = some left) ∧
      ∀ left, result = some left →
        (∀ r ∈ left, r.coeffs.length = keep.count true) ∧
        (∀ z, z.length = keep.count true →
          (Solves left z ↔ ∃ x, x.length = keep.length ∧ Solves rows x ∧ keptOf keep x = z)) ∧
        (keep.count true = 0 →
          (¬ ∃ x, x.length = keep.length ∧ Solves rows x) ∧ left = [.never 0] ∨
            (∃ x, x.length = keep.length ∧ Solves rows x) ∧ left = []) := by
  refine (ensures_project wide).mono fun result h => ⟨fun unlimited => ?_, fun left found => ?_⟩
  · refine Option.ne_none_iff_exists'.1 fun none => ?_
    exact absurd (h.1 none) (by simp [Request.Limited, unlimited])
  · have projection := h.2 left found
    exact ⟨projection.width, projection.solves_iff, projection.of_none_kept⟩

/-- The triangle `0 ≤ y ≤ x < 1` has the half-open unit interval as its shadow. -/
theorem half_open_shadow :
    let rows : List Row := [⟨[1, 0], 1, true⟩, ⟨[-1, 1], 0, false⟩, ⟨[0, -1], 0, false⟩]
    (∀ r ∈ rows, r.coeffs.length = [true, false].length) ∧
    Op.Returns ⟨.forget, .standard, []⟩ (project rows [true, false]) fun result =>
      ∃ left, result = some left ∧ ¬ Solves left [1] ∧ Solves left [0] := by
  intro rows
  have wide : ∀ r ∈ rows, r.coeffs.length = [true, false].length := by simp [rows]
  refine ⟨wide, ((projection_exact wide ⟨.forget, .standard, []⟩).returns
    (by simp [Request.Limited, OperationOptions.standard])).mono ?_⟩
  rintro result ⟨total, projection⟩
  obtain ⟨left, found⟩ := total rfl
  obtain ⟨-, solves, -⟩ := projection left found
  refine ⟨left, found, fun corner => ?_, (solves [0] rfl).2 ⟨[0, 0], rfl, ?_, rfl⟩⟩
  · obtain ⟨x, length, inside, kept⟩ := (solves [1] rfl).1 corner
    obtain ⟨u, v, rfl⟩ := List.length_eq_two.1 length
    obtain rfl : u = 1 := by simpa [keptOf] using kept
    simp [rows, Row.holdsAt] at inside
  · simp [rows, Row.holdsAt]

theorem ensures_infeasible (wide : ∀ r ∈ rows, r.coeffs.length = n) :
    Op.Ensures request request.Limited (infeasible rows) fun answer =>
      (answer = true → ∀ x, x.length = n → ¬ Solves rows x) ∧
        (answer = false → ¬ request.Limited →
          ∃ x, x.length = n ∧ Solves rows x) := by
  -- without rows, the number of columns cannot be read off them, and does not matter
  have solvable : (∃ x, x.length = columns rows ∧ Solves rows x) ↔
      ∃ x, x.length = n ∧ Solves rows x := by
    by_cases empty : rows = []
    · subst empty
      exact ⟨fun _ => ⟨replicate n 0, by simp⟩, fun _ => ⟨[], rfl, solves_nil []⟩⟩
    · rw [columns_eq wide empty]
  have same : ∀ r ∈ rows, r.coeffs.length = columns rows := fun r mem =>
    (wide r mem).trans (columns_eq wide (ne_nil_of_mem mem)).symm
  refine (ensures_project (by simpa using same)).bind fun result h => ?_
  cases result with
  | none => exact Op.ensures_pure ⟨by simp, fun _ unlimited => absurd (h.1 rfl) unlimited⟩
  | some left =>
    have decided := (h.2 left rfl).of_none_kept (by simp [count_replicate])
    rw [length_replicate, solvable] at decided
    rcases decided with ⟨none, rfl⟩ | ⟨some, rfl⟩
    · exact Op.ensures_pure ⟨fun _ x length solves => none ⟨x, length, solves⟩, by simp⟩
    · exact Op.ensures_pure ⟨by simp, fun _ _ => some⟩

theorem ensures_entails {r : Row} (wide : ∀ r ∈ rows, r.coeffs.length = n)
    (width : r.coeffs.length = n) :
    Op.Ensures request request.Limited (entails rows r) fun answer =>
      (answer = true → ∀ x, x.length = n → Solves rows x → r.holdsAt x = true) ∧
        (answer = false → ¬ request.Limited →
          ∃ x, x.length = n ∧ Solves rows x ∧ ¬ r.holdsAt x = true) := by
  have widths : ∀ s ∈ rows ++ [r.negate], s.coeffs.length = n := by
    intro s mem
    rcases mem_append.1 mem with old | new
    · exact wide s old
    · obtain rfl := mem_singleton.1 new
      simpa [negate] using width
  -- a row is implied if its negation cannot be added
  have both (x : List Rat) : Solves (rows ++ [r.negate]) x ↔
      Solves rows x ∧ ¬ r.holdsAt x = true := by
    rw [solves_append, solves_cons, holdsAt_negate]
    simp
  refine (ensures_infeasible widths).mono fun answer h => ⟨fun yes x length solves => ?_, ?_⟩
  · by_contra fails
    exact h.1 yes x length ((both x).2 ⟨solves, fails⟩)
  · intro no unlimited
    obtain ⟨x, length, solves⟩ := h.2 no unlimited
    exact ⟨x, length, (both x).1 solves⟩

end Rows

end Enclosure
