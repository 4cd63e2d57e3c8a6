import Enclosure.Proofs.EqualBounds
import Enclosure.Proofs.Relaxation

/-!
# Tight normal forms

Integers without common divisor have a combination that is one, so every integer is the value of a
bound in normal form at some integer vector.
-/

namespace Enclosure

open List

namespace LinearBound

variable {b : LinearBound} {s : Space} {cs : List Rat} {n : Nat}

/-- The numbers are integers, and only one divides all of them. -/
structure IsPrimitive (cs : List Rat) : Prop where
  whole : ∀ c ∈ cs, c.den = 1
  coprime : ∀ n : Nat, (∀ c ∈ cs, n ∣ c.num.natAbs) → n = 1

/-- The bound is an integer and not strict, and some integer vector attains it. -/
structure IsAttained (s : Space) (b : LinearBound) : Prop where
  relation : b.relation ≠ .below
  whole : b.bound.den = 1
  attained : ∃ x : List Int, x.length = s.size ∧ dot b.coeffs (x.map (↑)) = b.bound

theorem dvd_content (all : ∀ c ∈ cs, n ∣ c.num.natAbs) : n ∣ content cs := by
  have run (m : Nat) (start : n ∣ m) : n ∣ cs.foldl (fun m c => m.gcd c.num.natAbs) m := by
    induction cs generalizing m with
    | nil => exact start
    | cons c cs ih =>
      obtain ⟨here, rest⟩ := forall_mem_cons.1 all
      exact ih rest _ (Nat.dvd_gcd start here)
  exact run 0 (Nat.dvd_zero n)

theorem isPrimitive_primitive (matters : allZero b.coeffs = false) :
    IsPrimitive b.primitive.coeffs where
  whole _ mem := den_of_mem_primitive mem
  coprime n all := by
    set ds := (b.scale (denominator b.coeffs)).coeffs
    have pos : 0 < content ds := by
      refine content_pos ((allZero_scale ?_).trans matters)
      exact_mod_cast (denominator_pos b.coeffs).ne'
    -- a common divisor of the quotients gives one of the numbers, times their content
    have divides : n * content ds ∣ content ds := by
      refine dvd_content fun d mem => ?_
      have inside := mem_map_of_mem (f := (· * (1 / (content ds : Rat)))) mem
      have whole := (Rat.den_eq_one_iff _).1 (den_of_mem_primitive (b := b) inside)
      set k := (d * (1 / (content ds : Rat))).num
      have value : d = (k * content ds : Int) := by
        push_cast
        rw [whole]
        field_simp
      rw [value, Rat.num_intCast, Int.natAbs_mul, Int.natAbs_natCast]
      exact Nat.mul_dvd_mul_right (all _ inside) _
    have one := Nat.le_of_dvd pos divides
    have : n ≠ 0 := by
      rintro rfl
      rw [zero_mul, Nat.zero_dvd] at divides
      exact pos.ne' divides
    nlinarith [Nat.pos_of_ne_zero this]

theorem IsPrimitive.primitive_eq (h : IsPrimitive b.coeffs) : b.primitive = b := by
  have denominator : denominator b.coeffs = 1 := by
    have run (cs : List Rat) (whole : ∀ c ∈ cs, c.den = 1) :
        cs.foldl (fun n c => n.lcm c.den) 1 = 1 := by
      induction cs with
      | nil => rfl
      | cons c cs ih =>
        obtain ⟨here, rest⟩ := forall_mem_cons.1 whole
        rw [foldl_cons, here]
        exact ih rest
    exact run _ h.whole
  have content : content b.coeffs = 1 := h.coprime _ fun c mem => content_dvd mem
  simp_all [primitive, scale]

theorem dot_map_cast_mul (x : List Int) (k : Int) :
    dot cs ((x.map (· * k)).map (↑)) = dot cs (x.map (↑)) * k := by
  rw [dot_comm, dot_comm cs, ← dot_map_mul]
  simp [Function.comp_def]

/-- Some combination of integers divides all of them. -/
theorem exists_dot_dvd (whole : ∀ c ∈ cs, c.den = 1) : ∃ (g : Nat) (x : List Int),
    x.length = cs.length ∧ (∀ c ∈ cs, g ∣ c.num.natAbs) ∧ dot cs (x.map (↑)) = g := by
  induction cs with
  | nil => exact ⟨0, [], rfl, by simp, by simp⟩
  | cons c cs ih =>
    obtain ⟨here, rest⟩ := forall_mem_cons.1 whole
    obtain ⟨g, x, length, divides, value⟩ := ih rest
    refine ⟨Int.gcd c.num g, Int.gcdA c.num g :: x.map (· * Int.gcdB c.num g), by simp [length],
      forall_mem_cons.2 ⟨?_, fun d mem => ?_⟩, ?_⟩
    · exact Int.natCast_dvd.1 (Int.gcd_dvd_left _ _)
    · exact (Int.natCast_dvd_natCast.1 (Int.gcd_dvd_right _ _)).trans (divides d mem)
    · have bezout := congrArg (Int.cast (R := Rat)) (Int.gcd_eq_gcd_ab c.num g)
      push_cast at bezout
      rw [(Rat.den_eq_one_iff c).1 here] at bezout
      rw [map_cons, dot_cons, dot_map_cast_mul, value]
      exact_mod_cast bezout.symm

theorem IsPrimitive.exists_dot_eq (h : IsPrimitive cs) (k : Int) :
    ∃ x : List Int, x.length = cs.length ∧ dot cs (x.map (↑)) = k := by
  obtain ⟨g, x, length, divides, value⟩ := exists_dot_dvd h.whole
  obtain rfl := h.coprime g divides
  exact ⟨x.map (· * k), by simp [length], by rw [dot_map_cast_mul, value, Nat.cast_one, one_mul]⟩

theorem isPoint_map_cast {x : List Int} (length : x.length = s.size) : s.IsPoint (x.map (↑)) := by
  refine ⟨by simpa using length, fun d _ => ?_⟩
  simp only [getD_eq_getElem?_getD, getElem?_map]
  cases x[d]? <;> rfl

/-! ### Normal forms -/

theorem coeffs_tighten : b.tighten.2.coeffs = b.coeffs := by
  unfold tighten
  split <;> rfl

theorem tighten_cases (b : LinearBound) : b.tighten = (false, b) ∧ b.bound.den ≠ 1 ∨
    ∃ k : Int, ∃ relation ≠ .below, b.tighten = (true, ⟨b.coeffs, k, relation⟩) := by
  obtain ⟨cs, k, relation⟩ := b
  cases relation with
  | atMost => exact .inr ⟨k.floor, .atMost, BoundRelation.noConfusion, rfl⟩
  | below => exact .inr ⟨k.ceil - 1, .atMost, BoundRelation.noConfusion, by simp [tighten]⟩
  | equal =>
    by_cases whole : k.den = 1
    · refine .inr ⟨k.num, .equal, BoundRelation.noConfusion, ?_⟩
      simp [tighten, whole, (Rat.den_eq_one_iff k).1 whole]
    · exact .inl ⟨by simp [tighten, whole], whole⟩

theorem tighten_tighten : b.tighten.2.tighten = b.tighten := by
  rcases tighten_cases b with ⟨fails, -⟩ | ⟨k, relation, loose, run⟩
  · rw [fails, fails]
  · rw [run]
    cases relation <;> simp_all [tighten]

theorem normalize_of_matters (matters : allZero b.coeffs = false) :
    b.normalize s = if b.primitive.isIntegral s then b.primitive.tighten else (true, b.primitive) := by
  simp [normalize, trivial?, matters]

theorem coeffs_normalize_of_matters (matters : allZero b.coeffs = false) :
    (b.normalize s).2.coeffs = b.primitive.coeffs := by
  rw [normalize_of_matters matters]
  split
  · exact coeffs_tighten
  · rfl

theorem normalize_normalize : (b.normalize s).2.normalize s = b.normalize s := by
  cases constant : b.trivial? with
  | some holds => simp [normalize, constant]
  | none =>
    have matters := allZero_of_trivial constant
    have coeffs := coeffs_normalize_of_matters (s := s) matters
    have primitive := coeffs ▸ isPrimitive_primitive matters
    rw [normalize_of_matters (coeffs ▸ allZero_primitive matters), primitive.primitive_eq]
    have integral : (b.normalize s).2.isIntegral s = b.primitive.isIntegral s := by
      rw [isIntegral, coeffs, isIntegral]
    rw [integral, normalize_of_matters matters]
    split
    · exact tighten_tighten
    · rfl

theorem isIntegral_primitive (ints : ∀ (d : Nat) (c : Rat), b.coeffs[d]? = some c → c ≠ 0 →
    s.isInt d = true) : b.primitive.isIntegral s = true := by
  refine all_eq_true.2 fun e mem => ?_
  have place := mem_zipIdx_iff_getElem?.1 mem
  simp only [primitive, scale, getElem?_map, Option.map_eq_some_iff] at place
  obtain ⟨_, ⟨c, found, rfl⟩, value⟩ := place
  by_cases zero : c = 0
  · simp [← value, zero]
  · simp [ints e.2 c found zero]

section

variable (matters : allZero b.coeffs = false)
  (ints : ∀ (d : Nat) (c : Rat), b.coeffs[d]? = some c → c ≠ 0 → s.isInt d = true)
include matters ints

theorem isAttained_normalize (dims : b.coeffs.length = s.size)
    (possible : (b.normalize s).1 = true) : (b.normalize s).2.IsAttained s := by
  have coeffs := coeffs_normalize_of_matters (s := s) matters
  rw [normalize_of_matters matters, if_pos (isIntegral_primitive ints)] at possible coeffs ⊢
  rcases tighten_cases b.primitive with ⟨fails, -⟩ | ⟨k, relation, loose, run⟩
  · rw [fails] at possible
    cases possible
  · obtain ⟨x, length, value⟩ := (isPrimitive_primitive matters).exists_dot_eq k
    rw [run]
    exact ⟨loose, Rat.den_intCast k, x, length.trans (length_primitive.trans dims), value⟩

theorem normalize_eq_false_iff (dims : b.coeffs.length = s.size) : (b.normalize s).1 = false ↔
    ∀ x : List Int, x.length = s.size → b.holdsAt (x.map (↑)) = false := by
  have exact' {x : List Int} (length : x.length = s.size) :=
    holdsAt_normalize (b := b) (.inl (isPoint_map_cast length))
  refine ⟨fun fails x length => by simpa [fails] using exact' length, fun none => ?_⟩
  by_contra possible
  have possible := Bool.eq_true_of_not_eq_false possible
  obtain ⟨loose, -, x, length, value⟩ := isAttained_normalize matters ints dims possible
  have attained : (b.normalize s).2.holdsAt (x.map (↑)) = true := by
    rw [holdsAt, value]
    cases relation : (b.normalize s).2.relation <;> simp_all [BoundRelation.holds]
  simpa [none x length] using (exact' length).2 ⟨possible, attained⟩

end

/-- The normal form of a bound holds at the same points as the bound, has integer coefficients
without common divisor, is attained at an integer vector if only integer dimensions matter, and is
its own normal form. -/
theorem normal_form_exact_and_tight (s : Space) (b : LinearBound)
    (dims : b.coeffs.length = s.size) :
    ((b.normalize s).1 = true →
      ∀ x, s.IsPoint x → b.holdsAt x = (b.normalize s).2.holdsAt x) ∧
    ((b.normalize s).1 = false → ∀ x, s.IsPoint x → b.holdsAt x = false) ∧
    ((∃ c ∈ b.coeffs, c ≠ 0) → IsPrimitive (b.normalize s).2.coeffs ∧
      ((∀ (d : Nat) (c : Rat), b.coeffs[d]? = some c → c ≠ 0 → s.isInt d = true) →
        ((b.normalize s).1 = true → (b.normalize s).2.IsAttained s) ∧
        ((b.normalize s).1 = false ↔
          ∀ x : List Int, x.length = s.size → b.holdsAt (x.map (↑)) = false))) ∧
    (b.normalize s).2.normalize s = b.normalize s := by
  have exact' {x : List Rat} (point : s.IsPoint x) := holdsAt_normalize (b := b) (.inl point)
  refine ⟨fun possible x point => by simpa [possible] using exact' point,
    fun fails x point => by simpa [fails] using exact' point, fun some => ?_, normalize_normalize⟩
  have matters : allZero b.coeffs = false := by simpa [allZero] using some
  refine ⟨coeffs_normalize_of_matters matters ▸ isPrimitive_primitive matters, fun ints => ?_⟩
  exact ⟨isAttained_normalize matters ints dims, normalize_eq_false_iff matters ints dims⟩

/-- A strict bound becomes the next integer, which is attained, and an equation is found to have no
integer solutions. -/
theorem normal_forms_of_even_sums :
    let s : Space := ⟨2, 1⟩
    let less : LinearBound := ⟨[2 / 3, 4 / 3, 0], 5, .below⟩
    let equation : LinearBound := ⟨[2, 4, 0], 7, .equal⟩
    less.normalize s = (true, ⟨[1, 2, 0], 7, .atMost⟩) ∧ (less.normalize s).2.IsAttained s ∧
      ∀ x : List Int, x.length = 3 → equation.holdsAt (x.map (↑)) = false := by
  intro s less equation
  have ints {p q : Rat} (d : Nat) c (found : [p, q, 0][d]? = some c) (nonzero : c ≠ 0) :
      s.isInt d = true := by
    rcases d with _ | _ | _ | d <;> simp_all [Space.isInt, s]
  have run : less.normalize s = (true, ⟨[1, 2, 0], 7, .atMost⟩) := by decide +kernel
  refine ⟨run, ?_, ?_⟩
  · have tight := (normal_form_exact_and_tight s less rfl).2.2.1 ⟨_, mem_cons_self, by norm_num⟩
    exact (tight.2 ints).1 (by rw [run])
  · have tight := (normal_form_exact_and_tight s equation rfl).2.2.1 ⟨_, mem_cons_self, by norm_num⟩
    exact (tight.2 ints).2.1 (by decide +kernel)

end LinearBound

end Enclosure
