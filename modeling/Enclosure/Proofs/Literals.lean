import Enclosure.Decimal.Literal
import Mathlib.Algebra.Order.Field.Rat
import Mathlib.Data.List.TakeWhile
import Mathlib.Tactic.FieldSimp
import Mathlib.Tactic.Ring

/-!
# Decimal literals and their grammar

The grammar of decimal literals, one predicate for each part of a text, and the reader against it.
-/

namespace Enclosure.Decimal

variable {cs front back body sign whole fraction mantissa power : List Char} {c : Char}
  {negative : Bool} {e : Int} {text : String}

/-! ### The grammar -/

/-- A sign in front of a number, and whether it makes the number negative. -/
inductive IsSign : Bool → List Char → Prop
  | none : IsSign false []
  | plus : IsSign false ['+']
  | minus : IsSign true ['-']

def IsDigits (cs : List Char) : Prop := ∀ c ∈ cs, c.isDigit = true

/-- A signed integer. -/
inductive IsInteger : Int → List Char → Prop
  | intro {negative : Bool} {sign digits : List Char} (signed : IsSign negative sign)
      (nonempty : digits ≠ []) (digital : IsDigits digits) :
      IsInteger (if negative then -(Nat.ofDigitChars 10 digits 0 : Int)
        else Nat.ofDigitChars 10 digits 0) (sign ++ digits)

/-- The digits before and after the point, at least one in all. -/
inductive IsMantissa : List Char → List Char → List Char → Prop
  | whole {digits : List Char} (nonempty : digits ≠ []) (digital : IsDigits digits) :
      IsMantissa digits [] digits
  | point {whole fraction : List Char} (nonempty : whole ++ fraction ≠ [])
      (digital : IsDigits (whole ++ fraction)) :
      IsMantissa whole fraction (whole ++ '.' :: fraction)

/-- A power of ten after its mark, or none. -/
inductive IsPower : Int → List Char → Prop
  | none : IsPower 0 []
  | marked {mark : Char} {e : Int} {cs : List Char} (isMark : mark = 'e' ∨ mark = 'E')
      (integer : IsInteger e cs) : IsPower e (mark :: cs)

def IsPadded (body cs : List Char) : Prop :=
  ∃ left right, (∀ c ∈ left, isBlank c = true) ∧ (∀ c ∈ right, isBlank c = true) ∧
    cs = left ++ body ++ right

/-- A decimal number as it is written: its sign, its digits before and after the point, and its
power of ten. -/
structure Numeral where
  negative : Bool
  whole : List Char
  fraction : List Char
  power : Int

def Numeral.value (n : Numeral) : Rat :=
  let magnitude : Rat := (Nat.ofDigitChars 10 n.whole 0 +
    Nat.ofDigitChars 10 n.fraction 0 / 10 ^ n.fraction.length) * 10 ^ n.power
  if n.negative then -magnitude else magnitude

def Numeral.Spells (n : Numeral) (cs : List Char) : Prop :=
  ∃ sign mantissa power, IsSign n.negative sign ∧ IsMantissa n.whole n.fraction mantissa ∧
    IsPower n.power power ∧ IsPadded (sign ++ (mantissa ++ power)) cs

def SpellsInfinity (negative : Bool) (cs : List Char) : Prop :=
  ∃ sign word, IsSign negative sign ∧ (word = "inf".toList ∨ word = "infinity".toList) ∧
    IsPadded (sign ++ word) cs

/-! ### Characters -/

theorem isDigit_eq (c : Char) : isDigit c = c.isDigit := by
  simp only [isDigit, Char.isDigit, Char.le_def, Bool.decide_and]

theorem all_isDigit_iff : cs.all isDigit = true ↔ IsDigits cs := by
  simp only [List.all_eq_true, isDigit_eq, IsDigits]

theorem toNat_of_isDigit (digit : c.isDigit = true) : 48 ≤ c.toNat ∧ c.toNat ≤ 57 := by
  simpa [Char.isDigit, UInt32.le_iff_toNat_le] using digit

theorem isBlank_of_isDigit (digit : c.isDigit = true) : isBlank c = false := by
  have range := toNat_of_isDigit digit
  simp only [isBlank, decide_eq_false_iff_not]
  omega

theorem digitsValue_eq (cs : List Char) : digitsValue cs = Nat.ofDigitChars 10 cs 0 :=
  Nat.ofDigitChars_eq_foldl.symm

/-! ### Blanks and signs -/

theorem isPadded_self (cs : List Char) : IsPadded cs cs := ⟨[], [], by simp, by simp, by simp⟩

theorem isPadded_trimBlanks (cs : List Char) : IsPadded (trimBlanks cs) cs := by
  refine ⟨cs.takeWhile isBlank, ((cs.dropWhile isBlank).reverse.takeWhile isBlank).reverse,
    fun c mem => List.mem_takeWhile_imp mem,
    fun c mem => List.mem_takeWhile_imp (List.mem_reverse.1 mem), ?_⟩
  rw [trimBlanks, List.append_assoc, ← List.reverse_append, List.takeWhile_append_dropWhile,
    List.reverse_reverse, List.takeWhile_append_dropWhile]

private theorem dropWhile_append_solid {left right : List Char}
    (solid : ∀ c ∈ body, isBlank c = false) (blanks : ∀ c ∈ left, isBlank c = true)
    (blanks' : ∀ c ∈ right, isBlank c = true) :
    (left ++ body ++ right).dropWhile isBlank = if body = [] then [] else body ++ right := by
  rw [List.append_assoc, List.dropWhile_append_of_pos blanks]
  cases body with
  | nil => simpa using blanks'
  | cons c body => simp [solid c (by simp)]

theorem trimBlanks_eq (padded : IsPadded body cs) (solid : ∀ c ∈ body, isBlank c = false) :
    trimBlanks cs = body := by
  obtain ⟨_, right, blanks, blanks', rfl⟩ := padded
  rw [trimBlanks, dropWhile_append_solid solid blanks blanks']
  split
  · rename_i empty
    simp [empty]
  · rename_i nonempty
    have back : (right.reverse ++ body.reverse ++ []).dropWhile isBlank =
        if body.reverse = [] then [] else body.reverse ++ [] :=
      dropWhile_append_solid (by simpa using solid) (by simpa using blanks') (by simp)
    rw [List.append_nil, if_neg (by simpa using nonempty), List.append_nil] at back
    rw [List.reverse_append, back, List.reverse_reverse]

theorem exists_sign (cs : List Char) :
    ∃ sign, IsSign (splitSign cs).1 sign ∧ cs = sign ++ (splitSign cs).2 := by
  unfold splitSign
  split
  · exact ⟨_, .minus, rfl⟩
  · exact ⟨_, .plus, rfl⟩
  · exact ⟨_, .none, rfl⟩

theorem splitSign_append (signed : IsSign negative sign)
    (unsigned : ∀ c ∈ body.head?, c ≠ '-' ∧ c ≠ '+') :
    splitSign (sign ++ body) = (negative, body) := by
  cases signed with
  | none =>
    unfold splitSign
    split <;> simp_all
  | plus => rfl
  | minus => rfl

/-! ### Splitting at a mark -/

section SplitAtFirst

variable {stop : Char → Bool}

theorem splitAtFirst_clear (clear : ∀ c ∈ front, stop c = false) :
    splitAtFirst stop front = (front, none) := by
  induction front with
  | nil => rfl
  | cons c front ih =>
    rw [List.forall_mem_cons] at clear
    simp [splitAtFirst, clear.1, ih clear.2]

theorem splitAtFirst_append (clear : ∀ c ∈ front, stop c = false) (mark : stop c = true) :
    splitAtFirst stop (front ++ c :: back) = (front, some back) := by
  induction front with
  | nil => simp [splitAtFirst, mark]
  | cons c front ih =>
    rw [List.forall_mem_cons] at clear
    simp [splitAtFirst, clear.1, ih clear.2]

theorem splitAtFirst_cases (stop : Char → Bool) (cs : List Char) :
    splitAtFirst stop cs = (cs, none) ∧ (∀ c ∈ cs, stop c = false) ∨
      ∃ front c back, splitAtFirst stop cs = (front, some back) ∧ stop c = true ∧
        cs = front ++ c :: back := by
  induction cs with
  | nil => exact .inl ⟨rfl, by simp⟩
  | cons c cs ih =>
    by_cases mark : stop c = true
    · exact .inr ⟨[], c, cs, by simp [splitAtFirst, mark], mark, rfl⟩
    rw [Bool.not_eq_true] at mark
    rcases ih with ⟨split, clear⟩ | ⟨front, d, back, split, mark', rfl⟩
    · exact .inl ⟨by simp [splitAtFirst, mark, split], List.forall_mem_cons.2 ⟨mark, clear⟩⟩
    · exact .inr ⟨c :: front, d, back, by simp [splitAtFirst, mark, split], mark', rfl⟩

end SplitAtFirst

/-! ### The parts of a literal -/

theorem IsDigits.head_ne (digital : IsDigits cs) : ∀ c ∈ cs.head?, c ≠ '-' ∧ c ≠ '+' := by
  intro c first
  have digit := digital c (List.mem_of_mem_head? first)
  constructor <;> rintro rfl <;> simp at digit

theorem readInt64?_eq_some_iff :
    readInt64? cs = some e ↔ IsInteger e cs ∧ minInt64 ≤ e ∧ e ≤ maxInt64 := by
  constructor
  · intro read
    obtain ⟨_, signed, text⟩ := exists_sign cs
    simp only [readInt64?, Bool.or_eq_true, Bool.not_eq_true', List.isEmpty_iff] at read
    obtain ⟨shape, read⟩ := Option.ite_none_left_eq_some.1 read
    obtain ⟨range, value⟩ := Option.ite_none_right_eq_some.1 read
    rw [not_or, Bool.not_eq_false, all_isDigit_iff] at shape
    obtain rfl := Option.some.inj value
    have integer := IsInteger.intro signed shape.1 shape.2
    rw [← text] at integer
    exact ⟨integer, range⟩
  · rintro ⟨⟨signed, nonempty, digital⟩, range⟩
    simp [readInt64?, splitSign_append signed digital.head_ne, nonempty, all_isDigit_iff.2 digital,
      digitsValue_eq, range]

def Numeral.scaled (n : Numeral) : Scaled :=
  ⟨Nat.ofDigitChars 10 (n.whole ++ n.fraction) 0, n.power - n.fraction.length⟩

def Numeral.literal (n : Numeral) : Literal := .finite n.negative n.scaled

theorem IsMantissa.clear (h : IsMantissa whole fraction mantissa) :
    ∀ c ∈ mantissa, c.isDigit = true ∨ c = '.' := by
  cases h with
  | whole nonempty digital => exact fun c mem => .inl (digital c mem)
  | point nonempty digital =>
    intro c mem
    rw [List.mem_append, List.mem_cons] at mem
    rcases mem with mem | rfl | mem
    · exact .inl (digital c (List.mem_append_left _ mem))
    · exact .inr rfl
    · exact .inl (digital c (List.mem_append_right _ mem))

theorem readMantissa?_eq_some_iff {l : Literal} :
    readMantissa? negative e mantissa = some l ↔ ∃ whole fraction,
      IsMantissa whole fraction mantissa ∧ l = Numeral.literal ⟨negative, whole, fraction, e⟩ := by
  have plain (ds : List Char) (digital : IsDigits ds) : ∀ c ∈ ds, decide (c = '.') = false := by
    intro c mem
    have digit := digital c mem
    rw [decide_eq_false_iff_not]
    rintro rfl
    simp at digit
  constructor
  · intro read
    simp only [readMantissa?, Bool.not_eq_true', digitsValue_eq] at read
    obtain ⟨nonempty, read⟩ := Option.ite_none_left_eq_some.1 read
    obtain ⟨digital, value⟩ := Option.ite_none_left_eq_some.1 read
    rw [Bool.not_eq_false, all_isDigit_iff] at digital
    obtain rfl := Option.some.inj value
    rcases splitAtFirst_cases (fun c => c = '.') mantissa with
      ⟨split, -⟩ | ⟨front, c, back, split, mark, rfl⟩
    · simp only [split, Option.getD_none, List.append_nil] at nonempty digital ⊢
      exact ⟨_, _, .whole (by simpa using nonempty) digital,
        by simp [Numeral.literal, Numeral.scaled]⟩
    · obtain rfl : c = '.' := of_decide_eq_true mark
      simp only [split] at nonempty digital ⊢
      exact ⟨_, _, .point (by simpa using nonempty) digital, rfl⟩
  · rintro ⟨whole, _, spelled, rfl⟩
    cases spelled with
    | whole nonempty digital =>
      simp [readMantissa?, splitAtFirst_clear (plain _ digital), nonempty,
        all_isDigit_iff.2 digital, digitsValue_eq, Numeral.literal,
        Numeral.scaled]
    | point nonempty digital =>
      have clear := plain whole fun c mem => digital c (List.mem_append_left _ mem)
      have digits := all_isDigit_iff.2 digital
      simp_all [readMantissa?, splitAtFirst_append clear, digitsValue_eq, Numeral.literal,
        Numeral.scaled]

/-! ### Reading a literal -/

theorem IsSign.solid (h : IsSign negative sign) : ∀ c ∈ sign, isBlank c = false := by
  cases h <;> simp [isBlank]

theorem IsMantissa.solid (h : IsMantissa whole fraction mantissa) :
    ∀ c ∈ mantissa, isBlank c = false := by
  intro c mem
  rcases h.clear c mem with digit | rfl
  · exact isBlank_of_isDigit digit
  · decide

theorem IsPower.solid (h : IsPower e power) : ∀ c ∈ power, isBlank c = false := by
  cases h with
  | none => simp
  | marked isMark integer =>
    obtain ⟨signed, -, digital⟩ := integer
    rw [List.forall_mem_cons, List.forall_mem_append]
    refine ⟨?_, signed.solid, fun c mem => isBlank_of_isDigit (digital c mem)⟩
    rcases isMark with rfl | rfl <;> decide

theorem IsMantissa.exists_head (h : IsMantissa whole fraction mantissa) (power : List Char) :
    ∃ c rest, mantissa ++ power = c :: rest ∧ (c.isDigit = true ∨ c = '.') := by
  have nonempty : mantissa ≠ [] := by
    cases h with
    | whole nonempty digital => exact nonempty
    | point nonempty digital => simp
  obtain ⟨c, rest, rfl⟩ := List.exists_cons_of_ne_nil nonempty
  exact ⟨c, rest ++ power, rfl, h.clear c (by simp)⟩

theorem IsMantissa.splitAtFirst_eq (h : IsMantissa whole fraction mantissa) :
    splitAtFirst (fun c => c = 'e' || c = 'E') mantissa = (mantissa, none) ∧
      ∀ mark back, mark = 'e' ∨ mark = 'E' →
        splitAtFirst (fun c => c = 'e' || c = 'E') (mantissa ++ mark :: back) =
          (mantissa, some back) := by
  have clear : ∀ c ∈ mantissa, (decide (c = 'e') || decide (c = 'E')) = false := by
    intro c mem
    rcases h.clear c mem with digit | rfl
    · rw [Bool.or_eq_false_iff, decide_eq_false_iff_not, decide_eq_false_iff_not]
      constructor <;> rintro rfl <;> simp at digit
    · decide
  exact ⟨splitAtFirst_clear clear, fun mark back isMark => splitAtFirst_append clear (by simpa)⟩

theorem Numeral.Spells.read?_eq {n : Numeral} (h : n.Spells text.toList) (low : minInt64 ≤ n.power)
    (high : n.power ≤ maxInt64) : Literal.read? text = some n.literal := by
  obtain ⟨sign, mantissa, power, signed, spelled, powered, padded⟩ := h
  have trimmed : trimBlanks text.toList = sign ++ (mantissa ++ power) := by
    refine trimBlanks_eq padded ?_
    rw [List.forall_mem_append, List.forall_mem_append]
    exact ⟨signed.solid, spelled.solid, powered.solid⟩
  obtain ⟨c, _, body, first⟩ := spelled.exists_head power
  have split : splitSign (sign ++ (mantissa ++ power)) = (n.negative, mantissa ++ power) := by
    refine splitSign_append signed ?_
    rw [body]
    rintro c ⟨rfl⟩
    constructor <;> rintro rfl <;> simp at first
  have finite : ¬ (mantissa ++ power = "inf".toList ∨ mantissa ++ power = "infinity".toList) := by
    rw [body]
    rintro (same | same) <;>
    · obtain rfl : c = 'i' := by simpa using congrArg List.head? same
      simp at first
  have read (e : Int) : readMantissa? n.negative e mantissa =
      some (Numeral.literal ⟨n.negative, n.whole, n.fraction, e⟩) :=
    readMantissa?_eq_some_iff.2 ⟨_, _, spelled, rfl⟩
  simp only [Literal.read?, trimmed, split, if_neg finite]
  obtain ⟨_, _, _, e⟩ := n
  cases powered with
  | none =>
    rw [List.append_nil, spelled.splitAtFirst_eq.1]
    exact read 0
  | marked isMark integer =>
    simp only [spelled.splitAtFirst_eq.2 _ _ isMark,
      readInt64?_eq_some_iff.2 ⟨integer, low, high⟩, read]

theorem SpellsInfinity.read?_eq (h : SpellsInfinity negative text.toList) :
    Literal.read? text = some (.infinite negative) := by
  obtain ⟨sign, word, signed, isWord, padded⟩ := h
  have trimmed : trimBlanks text.toList = sign ++ word := by
    refine trimBlanks_eq padded (List.forall_mem_append.2 ⟨signed.solid, ?_⟩)
    rcases isWord with rfl | rfl <;> simp [isBlank]
  have split : splitSign (sign ++ word) = (negative, word) := by
    refine splitSign_append signed ?_
    rcases isWord with rfl | rfl <;> simp
  unfold Literal.read?
  rw [trimmed, split]
  exact if_pos isWord

theorem spells_of_read? {l : Literal} (read : Literal.read? text = some l) :
    (∃ negative, SpellsInfinity negative text.toList ∧ l = .infinite negative) ∨
      ∃ n : Numeral, n.Spells text.toList ∧ minInt64 ≤ n.power ∧ n.power ≤ maxInt64 ∧
        l = n.literal := by
  have padded := isPadded_trimBlanks text.toList
  obtain ⟨sign, signed, trimmed⟩ := exists_sign (trimBlanks text.toList)
  rw [trimmed] at padded
  simp only [Literal.read?] at read
  generalize splitSign (trimBlanks text.toList) = parts at signed padded read
  obtain ⟨negative, body⟩ := parts
  split at read
  · rename_i isWord
    exact .inl ⟨negative, ⟨sign, body, signed, isWord, padded⟩, (Option.some.inj read).symm⟩
  right
  rcases splitAtFirst_cases (fun c => c = 'e' || c = 'E') body with
    ⟨parts, -⟩ | ⟨mantissa, mark, back, parts, isMark, rfl⟩
  · simp only [parts] at read
    obtain ⟨whole, fraction, spelled, rfl⟩ := readMantissa?_eq_some_iff.1 read
    have range : minInt64 ≤ 0 ∧ 0 ≤ maxInt64 := by decide
    exact ⟨⟨negative, whole, fraction, 0⟩,
      ⟨sign, body, [], signed, spelled, .none, by rwa [List.append_nil]⟩, range.1, range.2, rfl⟩
  · simp only [parts] at read
    cases integer : readInt64? back with
    | none => simp [integer] at read
    | some e =>
      simp only [integer] at read
      obtain ⟨whole, fraction, spelled, rfl⟩ := readMantissa?_eq_some_iff.1 read
      obtain ⟨integer, low, high⟩ := readInt64?_eq_some_iff.1 integer
      exact ⟨⟨negative, whole, fraction, e⟩,
        ⟨sign, mantissa, mark :: back, signed, spelled, .marked (by simpa using isMark) integer,
          padded⟩, low, high, rfl⟩

/-! ### The number that is read -/

theorem pow10_eq (e : Int) : pow10 e = 10 ^ e := by
  unfold pow10
  split
  · rename_i nonneg
    obtain ⟨k, rfl⟩ := Int.eq_ofNat_of_zero_le nonneg
    simp
  · obtain ⟨k, rfl⟩ : ∃ k : Nat, e = -k := ⟨e.natAbs, by omega⟩
    simp [Rat.mkRat_eq_div]

theorem ofDigitChars_point (whole fraction : List Char) :
    (Nat.ofDigitChars 10 whole 0 + Nat.ofDigitChars 10 fraction 0 / 10 ^ fraction.length : Rat) =
      Nat.ofDigitChars 10 (whole ++ fraction) 0 / 10 ^ fraction.length := by
  rw [Nat.ofDigitChars_append,
    @Nat.ofDigitChars_eq_ofDigitChars_zero fraction (.ofDigitChars 10 whole 0)]
  push_cast
  field_simp

theorem Numeral.value_eq (n : Numeral) :
    n.value = if n.negative then -n.scaled.value else n.scaled.value := by
  have magnitude : n.scaled.value = (Nat.ofDigitChars 10 n.whole 0 +
      Nat.ofDigitChars 10 n.fraction 0 / 10 ^ n.fraction.length) * 10 ^ n.power := by
    rw [ofDigitChars_point, scaled, Scaled.value, pow10_eq, zpow_sub₀ (by norm_num), zpow_natCast]
    ring
  rw [magnitude]
  rfl

end Enclosure.Decimal
