import Enclosure.Proofs.CorrectRounding
import Enclosure.Proofs.Literals

/-!
# Texts of floats

The text of a float spells its value exactly, so it is read back as the float, whatever the
direction of rounding.
-/

namespace Enclosure

open List Number

/-! ### Positional notation -/

namespace Decimal.Scaled

variable {x : Scaled}

theorem isDigits_characters (x : Scaled) : IsDigits x.characters := fun _ mem =>
  Nat.isDigit_of_mem_toDigits (by decide) (by decide) mem

theorem ofDigitChars_characters (x : Scaled) : Nat.ofDigitChars 10 x.characters 0 = x.digits :=
  Nat.ofDigitChars_ten_toDigits

theorem isDigits_zeros (n : Nat) : IsDigits (replicate n '0') := by
  intro c mem
  rw [eq_of_mem_replicate mem]
  rfl

private theorem point_eq_value {whole fraction : List Char} (zeros : Nat)
    (run : Nat.ofDigitChars 10 (whole ++ fraction) 0 = 10 ^ zeros * x.digits)
    (place : (zeros : Int) - fraction.length = x.exponent) :
    (Nat.ofDigitChars 10 whole 0 + Nat.ofDigitChars 10 fraction 0 / 10 ^ fraction.length : Rat) =
      x.value := by
  rw [ofDigitChars_point, run, value, pow10_eq, ← place, zpow_sub₀ (by norm_num), zpow_natCast,
    zpow_natCast]
  push_cast
  ring

theorem exists_isMantissa_positional (x : Scaled) :
    ∃ whole fraction, IsMantissa whole fraction x.positional ∧
      fraction.length = max 1 (-x.exponent).toNat ∧
      (Nat.ofDigitChars 10 whole 0 + Nat.ofDigitChars 10 fraction 0 / 10 ^ fraction.length : Rat) =
        x.value := by
  have digital := x.isDigits_characters
  have digits := x.ofDigitChars_characters
  have point : x.point = x.characters.length + x.exponent := rfl
  have nonempty : 0 < x.characters.length := Nat.length_toDigits_pos
  unfold positional
  dsimp only
  split
  · refine ⟨['0'], replicate (-x.point).toNat '0' ++ x.characters,
      .point (by simp) ?_, ?_, point_eq_value 0 ?_ ?_⟩
    · rw [IsDigits, forall_mem_append, forall_mem_append]
      exact ⟨isDigits_zeros 1, isDigits_zeros _, digital⟩
    · simp only [length_append, length_replicate]
      omega
    · simp [Nat.ofDigitChars_append, Nat.ofDigitChars_cons, digits]
    · simp only [length_append, length_replicate]
      omega
  split
  · refine ⟨x.characters.take x.point.toNat, x.characters.drop x.point.toNat, ?_, ?_,
      point_eq_value 0 ?_ ?_⟩
    · rw [append_assoc]
      refine .point ?_ ?_ <;> rw [take_append_drop]
      · exact length_pos_iff.1 nonempty
      · exact digital
    · rw [length_drop]
      omega
    · rw [take_append_drop, digits, pow_zero, one_mul]
    · rw [length_drop]
      omega
  · refine ⟨x.characters ++ replicate (x.point - x.characters.length).toNat '0', ['0'], ?_, ?_,
      point_eq_value ((x.point - x.characters.length).toNat + 1) ?_ ?_⟩
    · refine .point (by simp) ?_
      rw [IsDigits, forall_mem_append, forall_mem_append]
      exact ⟨⟨digital, isDigits_zeros _⟩, isDigits_zeros 1⟩
    · rw [length_singleton]
      omega
    · rw [append_assoc, ← replicate_succ', Nat.ofDigitChars_append, digits,
        Nat.ofDigitChars_replicate_zero]
    · rw [length_singleton]
      omega

end Decimal.Scaled

namespace Binary

open Decimal
open Double (Multiple)

variable {p : Nat} {q : Rat} {e : Int} {r : Rounding}

/-! ### Expansions of floats -/

theorem exists_den_eq (h : Multiple e q) : ∃ k : Nat, q.den = 2 ^ k ∧ (k : Int) ≤ max 0 (-e) := by
  obtain ⟨m, value⟩ := h.finer (d := -((-e).toNat : Int)) (by omega)
  have fraction : q = .divInt m (2 ^ (-e).toNat : Nat) := by
    rw [value, Rat.divInt_eq_div, zpow_neg]
    push_cast
    rfl
  have divides : q.den ∣ 2 ^ (-e).toNat := by
    have := Rat.den_dvd m (2 ^ (-e).toNat : Nat)
    rw [← fraction] at this
    exact_mod_cast this
  obtain ⟨k, _, den⟩ := (Nat.dvd_prime_pow Nat.prime_two).1 divides
  exact ⟨k, den, by omega⟩

theorem value_expansion (h : Multiple e q) : (expansion q).value = |q| := by
  obtain ⟨k, den, -⟩ := exists_den_eq h
  have ten : (10 : Rat) ^ k = 2 ^ k * 5 ^ k := by
    rw [← mul_pow]
    norm_num
  rw [← natAbs_div_den, expansion, Scaled.value, den, Nat.log2_two_pow, Nat.pow_eq, pow10_eq,
    zpow_neg, zpow_natCast, ten]
  push_cast
  field_simp

theorem exists_spells_text (h : Multiple e q) :
    ∃ n : Numeral, n.Spells (text (.fin q)).toList ∧ n.value = q ∧ n.power = 0 ∧
      (n.fraction.length : Int) ≤ max 1 (-e) := by
  obtain ⟨k, den, _⟩ := exists_den_eq h
  obtain ⟨whole, fraction, spelled, _, value⟩ := (expansion q).exists_isMantissa_positional
  have exponent : (expansion q).exponent = -k := by rw [expansion, den, Nat.log2_two_pow]
  rw [value_expansion h] at value
  have length : fraction.length ≤ max 1 (-e) := by omega
  rw [text]
  split
  · rename_i negative
    refine ⟨⟨true, whole, fraction, 0⟩, ?_, ?_, rfl, length⟩
    · exact ⟨_, _, _, .minus, spelled, .none, by simpa using isPadded_self _⟩
    · simp [Numeral.value, value, abs_of_neg negative]
  · rename_i nonneg
    refine ⟨⟨false, whole, fraction, 0⟩, ?_, ?_, rfl, length⟩
    · exact ⟨_, _, _, .none, spelled, .none, by simpa using isPadded_self _⟩
    · simp [Numeral.value, value, abs_of_nonneg (not_lt.1 nonneg)]

/-! ### Reading literals -/

theorem readLiteral_eq (pos : 0 < p) (r : Rounding) {n : Numeral} {text : String}
    (h : n.Spells text.toList) (low : minInt64 < n.power - n.fraction.length)
    (high : n.power ≤ maxInt64) :
    readLiteral p r text = .ok (some (ofExt (.binary p) r (.fin n.value))) := by
  have range : (Literal.finite n.negative n.scaled).inRange = true := decide_eq_true low
  rw [readLiteral, h.read?_eq (by omega) high, Numeral.literal, n.value_eq]
  simp only [range, build_eq pos]
  rfl

theorem readLiteral_of_spellsInfinity (pos : 0 < p) (r : Rounding) {negative : Bool} {text : String}
    (h : SpellsInfinity negative text.toList) :
    readLiteral p r text =
      .ok (some ⟨.binary p, if negative then .negInf else .posInf⟩) := by
  have made (sign : Int) : infinityOf (.binary p) sign = .ok (infinity (.binary p) sign) := by
    rw [infinityOf, (Kind.isOutward_binary pos).require_eq]
    rfl
  rw [readLiteral, h.read?_eq]
  simp only [made]
  cases negative <;> rfl

theorem readLiteral_of_not_spells (p : Nat) (r : Rounding) {text : String}
    (finite : ∀ n : Numeral, n.Spells text.toList → ¬ (minInt64 ≤ n.power ∧ n.power ≤ maxInt64))
    (infinite : ∀ negative, ¬ SpellsInfinity negative text.toList) :
    readLiteral p r text = .ok none := by
  have unread : Literal.read? text = none := by
    refine Option.eq_none_iff_forall_ne_some.2 fun l read => ?_
    rcases spells_of_read? read with ⟨negative, spelled, -⟩ | ⟨n, spelled, low, high, -⟩
    · exact infinite negative spelled
    · exact finite n spelled ⟨low, high⟩
  rw [readLiteral, unread]

theorem readLiteral_text (pos : 0 < p) (r : Rounding) (float : IsFloat p q) (h : Multiple e q)
    (low : minInt64 < e) :
    Number.readLiteral p r (Number.text ⟨.binary p, .fin q⟩) = .ok (some ⟨.binary p, .fin q⟩) := by
  obtain ⟨n, spelled, value, _, _⟩ := exists_spells_text h
  have range : minInt64 < n.power - n.fraction.length ∧ n.power ≤ maxInt64 := by
    have bounds : minInt64 = -9223372036854775808 ∧ maxInt64 = 9223372036854775807 := ⟨rfl, rfl⟩
    omega
  rw [Number.text, readLiteral_eq pos r spelled range.1 range.2, value, ofExt, Kind.round,
    float.round_eq pos]

theorem readLiteral_text_infinity (pos : 0 < p) (r : Rounding) (negative : Bool) :
    let x : Number := ⟨.binary p, if negative then .negInf else .posInf⟩
    readLiteral p r x.text = .ok (some x) := by
  refine readLiteral_of_spellsInfinity pos r ?_
  cases negative with
  | false => exact ⟨[], _, .none, .inl rfl, isPadded_self _⟩
  | true =>
    have word : "-inf".toList = ['-'] ++ "inf".toList := by decide
    exact ⟨['-'], _, .minus, .inl rfl, word ▸ isPadded_self _⟩

/-- The text of every float is read back as the float in every direction, whatever its mantissa and
its exponent, if the exponent has an opposite of 64 bits. -/
theorem texts_read_correctly (pos : 0 < p) (r : Rounding) :
    (∀ x : Number, x.Fits (.binary p) →
      (∀ m e : Int, Odd m → x.value = .fin (m * 2 ^ e) → minInt64 < e) →
      Number.readLiteral p r x.text = .ok (some x)) ∧
    (∀ (n : Numeral) (text : String), n.Spells text.toList →
      minInt64 < n.power - n.fraction.length → n.power ≤ maxInt64 →
      ∃ y, Number.readLiteral p r text = .ok (some ⟨.binary p, .fin y⟩) ∧
        IsRounding p r n.value y) ∧
    (∀ (negative : Bool) (text : String), SpellsInfinity negative text.toList →
      Number.readLiteral p r text =
        .ok (some ⟨.binary p, if negative then .negInf else .posInf⟩)) ∧
    ∀ text : String,
      (∀ n : Numeral, n.Spells text.toList → ¬ (minInt64 ≤ n.power ∧ n.power ≤ maxInt64)) →
      (∀ negative, ¬ SpellsInfinity negative text.toList) →
      Number.readLiteral p r text = .ok none := by
  refine ⟨?_, ?_, fun negative text => readLiteral_of_spellsInfinity pos r,
    fun text => readLiteral_of_not_spells p r⟩
  · intro x fits low
    obtain ⟨kind, value⟩ := x
    obtain rfl : kind = .binary p := fits.kind
    cases value with
    | negInf => exact readLiteral_text_infinity pos r true
    | posInf => exact readLiteral_text_infinity pos r false
    | fin q =>
      have float : IsFloat p q := fits.value
      rcases (isFloat_iff pos).1 float with rfl | ⟨m, e, odd, -, rfl⟩
      · exact readLiteral_text pos r float (e := 0) ⟨0, by simp⟩ (by decide)
      · exact readLiteral_text pos r float ⟨m, rfl⟩ (low m e odd rfl)
  · intro n text spelled low high
    exact ⟨_, readLiteral_eq pos r spelled low high, isRounding_round pos r n.value⟩

/-- With three bits, five eighths below zero is read back from its text, and fifteen is rounded up
to sixteen. -/
theorem five_eighths_read_back :
    let x : Number := ⟨.binary 3, .fin (-5 / 8)⟩
    let n : Numeral := ⟨false, ['1'], ['5'], 1⟩
    0 < 3 ∧ x.Fits (.binary 3) ∧ x.text = "-0.625" ∧
    Number.readLiteral 3 .up x.text = .ok (some x) ∧
    n.Spells " +1.5e01".toList ∧ n.value = 15 ∧ IsRounding 3 .up 15 16 ∧
    Number.readLiteral 3 .up "1.2.3" = .ok none := by
  intro x n
  obtain ⟨back, rounded, -, unread⟩ := texts_read_correctly (p := 3) (by decide) .up
  have fits : x.Fits (.binary 3) := ⟨rfl, -3, ⟨-5, by norm_num⟩, by norm_num⟩
  have low (m e : Int) (odd : Odd m) (value : x.value = .fin (m * 2 ^ e)) : minInt64 < e := by
    have parts : (-5 : Int) * (2 : Rat) ^ (-3 : Int) = m * 2 ^ e := by
      rw [← ExtRat.fin.inj value]
      norm_num
    rw [← (mantissa_unique (by decide) odd parts).2]
    decide
  have digits : Nat.ofDigitChars 10 ['1'] 0 = 1 ∧ Nat.ofDigitChars 10 ['5'] 0 = 5 := by decide
  have mantissa : IsMantissa ['1'] ['5'] ['1', '.', '5'] :=
    @IsMantissa.point ['1'] ['5'] (by simp) (by simp [IsDigits])
  have integer : IsInteger 1 ['0', '1'] :=
    @IsInteger.intro false [] ['0', '1'] .none (by simp) (by simp [IsDigits])
  have spelled : n.Spells " +1.5e01".toList :=
    ⟨['+'], _, _, .plus, mantissa, .marked (.inl rfl) integer, [' '], [], by simp [isBlank],
      by simp, by decide⟩
  have value : n.value = 15 := by norm_num [Numeral.value, n, digits]
  obtain ⟨y, read, correct⟩ := rounded n _ spelled (by decide) (by decide)
  have sixteen : y = 16 := by
    have := read.symm.trans (by decide +kernel :
      Number.readLiteral 3 .up " +1.5e01" = .ok (some ⟨.binary 3, .fin 16⟩))
    simpa using this
  rw [value, sixteen] at correct
  have none : Literal.read? "1.2.3" = none := by decide
  refine ⟨by decide, fits, by decide +kernel, back x fits low, spelled, value, correct,
    unread _ (fun n spelled range => ?_) fun negative spelled => ?_⟩
  · exact Option.some_ne_none _ ((spelled.read?_eq range.1 range.2).symm.trans none)
  · exact Option.some_ne_none _ (spelled.read?_eq.symm.trans none)

end Binary

end Enclosure
