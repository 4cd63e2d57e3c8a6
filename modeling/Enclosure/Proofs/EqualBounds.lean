import Enclosure.Proofs.Bounds

/-!
# Bounds that are the same

Two bounds are compared by the ratio of one pair of coefficients.
-/

namespace Enclosure

open List

namespace LinearBound

variable {a b c : LinearBound} {cs ds : List Rat} {x : List Rat} {q r : Rat}

theorem exists_dot_eq_dot_eq (same : cs.length = ds.length) (matters : allZero cs = false)
    (apart : ∀ r, ds ≠ cs.map (· * r)) (u v : Rat) :
    ∃ x : List Rat, x.length = cs.length ∧ dot cs x = u ∧ dot ds x = v := by
  obtain ⟨c, mem, nonzero⟩ : ∃ c ∈ cs, c ≠ 0 := by simpa [allZero] using matters
  obtain ⟨i, inside, rfl⟩ := mem_iff_getElem.1 mem
  -- what is left of the second combination does not depend on column `i`
  let r := ds[i] / cs[i]
  let es := zipWith (fun c d => c * -r + d * 1) cs ds
  have length : es.length = cs.length := by simp [es, same]
  have column : es.getD i 0 = 0 := by
    rw [getD_eq_getElem _ _ (length ▸ inside), getElem_zipWith]
    simp only [r]
    field_simp
    ring
  have split (x : List Rat) : dot es x = dot ds x - r * dot cs x := by
    rw [dot_zipWith same]
    ring
  have left : allZero es = false := by
    by_contra zero
    refine apart r (ext_getElem (by simp [same]) fun j h h' => ?_)
    have zero := all_eq_true.1 (Bool.eq_true_of_not_eq_false zero) (es[j]) (getElem_mem (by omega))
    simp only [es, getElem_zipWith, decide_eq_true_eq] at zero
    rw [getElem_map]
    linarith
  obtain ⟨y, size, value⟩ := exists_dot_eq left (v - r * u)
  have within : i < y.length := size ▸ length ▸ inside
  let x := y.set i (y.getD i 0 + (u - dot cs y) / cs[i])
  have moved (ks : List Rat) : dot ks x = dot ks y + (u - dot cs y) / cs[i] * ks.getD i 0 := by
    rw [dot_comm, dot_set within, dot_comm y]
    ring
  have first : dot cs x = u := by
    rw [moved, getD_eq_getElem _ _ inside]
    field_simp
    ring
  have rest : dot es x = v - r * u := by rw [moved, column, mul_zero, add_zero, value]
  refine ⟨x, by simp [x, size, length], first, ?_⟩
  rw [split, first] at rest
  linarith

theorem exists_holds (relation : BoundRelation) (k : Rat) :
    (∃ u, relation.holds u k = true) ∧ ∃ u, relation.holds u k = false := by
  refine ⟨⟨if relation = .equal then k else k - 1, ?_⟩, k + 1, ?_⟩ <;>
    cases relation <;> simp [BoundRelation.holds]

theorem eq_mul_of_holds_iff {relation : BoundRelation} {k l : Rat} (nonzero : r ≠ 0)
    (same : ∀ v, relation.holds v k = relation.holds (v * r) l) :
    l = k * r ∧ (0 < r ∨ relation = .equal) := by
  have order {k l : Rat} (same : ∀ v, v ≤ k ↔ v * r ≤ l) : l = k * r ∧ 0 < r := by
    have pos : 0 < r := by
      refine nonzero.lt_or_gt.resolve_left fun neg => ?_
      have far := (same (min k ((l + 1) / r))).1 (min_le_left _ _)
      have past := mul_le_mul_of_nonpos_right (min_le_right k ((l + 1) / r)) neg.le
      rw [div_mul_cancel₀ _ nonzero] at past
      linarith
    have back : l / r * r = l := div_mul_cancel₀ l nonzero
    have there := mul_le_mul_of_nonneg_right ((same (l / r)).2 back.le) pos.le
    exact ⟨le_antisymm (back ▸ there) ((same k).1 le_rfl), pos⟩
  cases relation with
  | equal =>
    have here := same k
    simp only [BoundRelation.holds, decide_true, true_eq_decide_iff] at here
    exact ⟨here.symm, .inr rfl⟩
  | atMost =>
    simp only [BoundRelation.holds, decide_eq_decide] at same
    exact (order same).imp_right .inl
  | below =>
    simp only [BoundRelation.holds, decide_eq_decide] at same
    -- the values that are not below the bound have opposites at most its opposite
    obtain ⟨value, pos⟩ := order (k := -k) (l := -l) fun v => by
      rw [le_neg, le_neg (a := v * r), ← neg_mul, ← not_lt, ← not_lt, same]
    exact ⟨by linarith, .inl pos⟩

theorem holdsAt_scale_of_ne (nonzero : q ≠ 0) (sign : 0 < q ∨ b.relation = .equal) :
    (b.scale q).holdsAt x = b.holdsAt x := by
  simp only [holdsAt, scale, dot_map_mul]
  rcases sign with pos | equal
  · exact holds_mul pos ..
  · simp [equal, BoundRelation.holds, mul_left_inj' nonzero]

theorem ratio?_eq (matters : allZero a.coeffs = false) (multiple : b.coeffs = a.coeffs.map (· * r))
    (nonzero : r ≠ 0) : ratio? a b = some r⁻¹ := by
  have pairs : a.coeffs.zip b.coeffs = a.coeffs.map fun c => (c, c * r) := by
    refine ext_getElem (by simp [multiple]) fun i _ _ => ?_
    simp [multiple]
  have found : ((a.coeffs.map fun c => (c, c * r)).find? (·.1 ≠ 0)).isSome := by
    simpa [allZero] using matters
  obtain ⟨p, hp⟩ := Option.isSome_iff_exists.1 found
  obtain ⟨c, -, rfl⟩ := mem_map.1 (mem_of_find?_eq_some hp)
  have pivot : c ≠ 0 := by simpa using find?_some hp
  rw [ratio?, pairs, hp]
  simp only [mul_eq_zero, pivot, nonzero, or_self, if_false]
  field_simp

theorem ne_zero_of_scale (matters : allZero a.coeffs = false) (eq : a = b.scale q) : q ≠ 0 := by
  rintro rfl
  rw [eq] at matters
  simp [scale, allZero] at matters

theorem exists_eq_scale (dims : a.coeffs.length = b.coeffs.length)
    (relation : a.relation = b.relation) (ha : allZero a.coeffs = false)
    (hb : allZero b.coeffs = false)
    (solutions : ∀ x, x.length = a.coeffs.length → a.holdsAt x = b.holdsAt x) :
    ∃ r ≠ 0, b = a.scale r ∧ (0 < r ∨ a.relation = .equal) := by
  obtain ⟨r, multiple⟩ : ∃ r, b.coeffs = a.coeffs.map (· * r) := by
    by_contra apart
    obtain ⟨⟨u, holds⟩, -⟩ := exists_holds a.relation a.bound
    obtain ⟨-, v, fails⟩ := exists_holds b.relation b.bound
    obtain ⟨x, length, rfl, rfl⟩ := exists_dot_eq_dot_eq dims ha (not_exists.1 apart) u v
    exact absurd (solutions x length) (by simp [holdsAt, holds, fails])
  have nonzero : r ≠ 0 := by
    rintro rfl
    simp [multiple, allZero] at hb
  have agree (v : Rat) : a.relation.holds v a.bound = a.relation.holds (v * r) b.bound := by
    obtain ⟨x, length, rfl⟩ := exists_dot_eq ha v
    have := solutions x length
    rwa [holdsAt, holdsAt, multiple, dot_map_mul, ← relation] at this
  obtain ⟨bound, sign⟩ := eq_mul_of_holds_iff nonzero agree
  refine ⟨r, nonzero, ?_, sign⟩
  cases b
  simp_all [scale]

theorem holdsAt_of_trivial {s : Bool} (fixed : a.trivial? = some s) (x : List Rat) :
    a.holdsAt x = s := by
  unfold trivial? at fixed
  split at fixed
  · rename_i zero
    rw [holdsAt, dot_of_allZero zero]
    exact Option.some.inj fixed
  · cases fixed

theorem allZero_of_trivial (free : a.trivial? = none) : allZero a.coeffs = false := by
  unfold trivial? at free
  split at free
  · cases free
  · simp_all

theorem not_constant (free : a.trivial? = none) (s : Bool) :
    ∃ x : List Rat, x.length = a.coeffs.length ∧ a.holdsAt x ≠ s := by
  obtain ⟨⟨u, holds⟩, v, fails⟩ := exists_holds a.relation a.bound
  cases s with
  | true =>
    obtain ⟨x, length, rfl⟩ := exists_dot_eq (allZero_of_trivial free) v
    exact ⟨x, length, by simp [holdsAt, fails]⟩
  | false =>
    obtain ⟨x, length, rfl⟩ := exists_dot_eq (allZero_of_trivial free) u
    exact ⟨x, length, by simp [holdsAt, holds]⟩

theorem same_iff (dims : a.coeffs.length = b.coeffs.length) (relation : a.relation = b.relation) :
    a.same b = true ↔ ∀ x, x.length = a.coeffs.length → a.holdsAt x = b.holdsAt x := by
  simp only [same, dims, relation, decide_true, Bool.true_and]
  cases ha : a.trivial? with
  | some s =>
    have left := holdsAt_of_trivial ha
    cases hb : b.trivial? with
    | some t =>
      simp only [decide_eq_true_eq, left, holdsAt_of_trivial hb]
      exact ⟨fun same _ _ => same, fun all => all (replicate b.coeffs.length 0) (by simp)⟩
    | none =>
      obtain ⟨x, length, differs⟩ := not_constant hb s
      simp only [Bool.false_eq_true, false_iff]
      exact fun all => differs ((all x length).symm.trans (left x))
  | none =>
    have left := allZero_of_trivial ha
    cases hb : b.trivial? with
    | some t =>
      obtain ⟨x, length, differs⟩ := not_constant ha t
      simp only [Bool.false_eq_true, false_iff]
      exact fun all => differs ((all x (length.trans dims)).trans (holdsAt_of_trivial hb x))
    | none =>
      constructor
      · intro compared x _
        cases found : ratio? a b with
        | none => simp [found] at compared
        | some q =>
          simp only [found, Bool.and_eq_true, Bool.or_eq_true, decide_eq_true_eq] at compared
          have nonzero := ne_zero_of_scale left compared.2
          rw [compared.2, holdsAt_scale_of_ne nonzero compared.1]
      · intro solutions
        obtain ⟨r, nonzero, rfl, sign⟩ := exists_eq_scale dims relation left
          (allZero_of_trivial hb) (dims ▸ solutions)
        have back : (a.scale r).scale r⁻¹ = a := by
          simp [scale, mul_assoc, mul_inv_cancel₀ nonzero]
        rw [ratio?_eq left rfl nonzero]
        simpa [back, relation] using sign

theorem shape_of_same (h : a.same b = true) :
    a.coeffs.length = b.coeffs.length ∧ a.relation = b.relation := by
  simp only [same, Bool.and_eq_true, decide_eq_true_eq] at h
  exact h.1

/-- Bounds on the same dimensions with the same relation are equal exactly if they have the same
solutions. -/
theorem equal_iff_same_solutions :
    (∀ a b : LinearBound, a.coeffs.length = b.coeffs.length → a.relation = b.relation →
      (a.same b = true ↔
        ∀ x : List Rat, x.length = a.coeffs.length → a.holdsAt x = b.holdsAt x)) ∧
    (∀ a : LinearBound, a.same a = true) ∧
    (∀ a b : LinearBound, a.same b = true → b.same a = true) ∧
    (∀ a b c : LinearBound, a.same b = true → b.same c = true → a.same c = true) ∧
    (∀ (a : LinearBound) (q : Rat), q ≠ 0 → (0 < q ∨ a.relation = .equal) →
      a.same (a.scale q) = true) ∧
    ∀ (a b : LinearBound) (s : Bool), a.coeffs.length = b.coeffs.length →
      a.relation = b.relation → a.trivial? = some s → b.trivial? = some s → a.same b = true := by
  refine ⟨fun a b => same_iff, fun a => (same_iff rfl rfl).2 fun _ _ => rfl, fun a b h => ?_,
    fun a b c h h' => ?_, fun a q nonzero sign => ?_, fun a b s dims relation ha hb => ?_⟩
  · obtain ⟨dims, relation⟩ := shape_of_same h
    exact (same_iff dims.symm relation.symm).2 fun x length =>
      ((same_iff dims relation).1 h x (length.trans dims.symm)).symm
  · obtain ⟨dims, relation⟩ := shape_of_same h
    obtain ⟨dims', relation'⟩ := shape_of_same h'
    exact (same_iff (dims.trans dims') (relation.trans relation')).2 fun x length =>
      ((same_iff dims relation).1 h x length).trans
        ((same_iff dims' relation').1 h' x (length.trans dims))
  · have dims : a.coeffs.length = (a.scale q).coeffs.length := by simp [scale]
    exact (same_iff dims rfl).2 fun x _ => (holdsAt_scale_of_ne nonzero sign).symm
  · exact (same_iff dims relation).2 fun x _ =>
      (holdsAt_of_trivial ha x).trans (holdsAt_of_trivial hb x).symm

/-- An equation and its multiple by a negative factor, which no inequality is equal to. -/
theorem negative_multiple_equal :
    let a : LinearBound := ⟨[0, 1, -2], 3, .equal⟩
    let b : LinearBound := ⟨[0, 1, -2], 3, .atMost⟩
    a.same (a.scale (-1)) = true ∧
      (b.same (b.scale (-1)) = true ↔ ∀ x : List Rat, x.length = 3 →
        b.holdsAt x = (b.scale (-1)).holdsAt x) ∧ b.same (b.scale (-1)) = false := by
  intro a b
  exact ⟨equal_iff_same_solutions.2.2.2.2.1 a (-1) (by decide) (.inr rfl),
    equal_iff_same_solutions.1 b _ rfl rfl, by decide +kernel⟩

end LinearBound

end Enclosure
