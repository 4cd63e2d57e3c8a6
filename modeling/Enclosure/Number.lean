import Enclosure.Kind
import Enclosure.Decimal.Shortest

/-!
# Numbers

A number is an exact extended rational together with the kind that represents it.
-/

namespace Enclosure

structure Number where
  kind : Kind
  value : ExtRat
  deriving DecidableEq

namespace Number

def ofExt (k : Kind) (r : Rounding) (x : ExtRat) : Number := ⟨k, k.round r x⟩

def ofInt (k : Kind) (r : Rounding) (n : Int) : Number := ofExt k r (.fin n)

def infinity (k : Kind) (sign : Int) : Number := ⟨k, .infinity sign⟩

def zero (k : Kind) : Number := ⟨k, .zero⟩

def one (k : Kind) : Number := ofInt k .nearest 1

def rational (x : ExtRat) : Number := ⟨.rational, x⟩

def convert (x : Number) (k : Kind) (r : Rounding) : Number :=
  if x.kind = k then x else ofExt k r x.value

def sign (x : Number) : Int := x.value.sign

def infinitySign (x : Number) : Int := x.value.infinitySign

def isInfinite (x : Number) : Bool := x.infinitySign ≠ 0

def isZero (x : Number) : Bool := x.value.isZero

def isInteger (x : Number) : Bool := x.value.isInteger

instance : LE Number := ⟨fun a b => a.value ≤ b.value⟩

instance : LT Number := ⟨fun a b => a.value < b.value⟩

instance (a b : Number) : Decidable (a ≤ b) := inferInstanceAs (Decidable (a.value ≤ b.value))

instance (a b : Number) : Decidable (a < b) := inferInstanceAs (Decidable (a.value < b.value))

def same (a b : Number) : Bool := a.value = b.value

def min (a b : Number) : Number := if b < a then b else a

def max (a b : Number) : Number := if a < b then b else a

def neg (x : Number) : Number := ⟨x.kind, x.value.neg⟩

def abs (x : Number) : Number := if x.sign < 0 then x.neg else x

/-- What the sum of opposite infinities is taken for: the infinity toward which the
direction points, so that a bound stays a bound. -/
def undefinedSum (k : Kind) (r : Rounding) : Number :=
  infinity k (if r = .up then 1 else -1)

def sum? (r : Rounding) (a b : Number) : Option Number :=
  match a.kind, b.kind with
  | .double, .double => (Double.add? r a.value b.value).map fun x => ⟨.double, x⟩
  | _, _ => (a.value.add? b.value).map (ofExt (a.kind.common b.kind) r)

def add (r : Rounding) (a b : Number) : Number :=
  (a.sum? r b).getD (undefinedSum a.kind r)

def sub (r : Rounding) (a b : Number) : Number := a.add r b.neg

def mul (r : Rounding) (a b : Number) : Number :=
  match a.kind, b.kind with
  | .double, .double => ⟨.double, Double.mul r a.value b.value⟩
  | _, _ => ofExt (a.kind.common b.kind) r (a.value.mul b.value)

def div? (r : Rounding) (a b : Number) : Option Number :=
  match a.kind, b.kind with
  | .double, .double => (Double.div? r a.value b.value).map fun x => ⟨.double, x⟩
  | _, _ => (a.value.div? b.value).map (ofExt (a.kind.common b.kind) r)

def sqrtTo? (bits : Nat) (r : Rounding) : ExtRat → Option ExtRat
  | .negInf => none
  | .posInf => some .posInf
  | .fin q => if q < 0 then none else some (.fin (Binary.sqrt bits r q))

def sqrt? (r : Rounding) (x : Number) : Option Number :=
  match x.kind with
  | .double => (Double.sqrt? r x.value).map fun y => ⟨.double, y⟩
  | .rational =>
    (sqrtTo? 128 r (Kind.round (.binary 128) r x.value)).map fun y => ⟨.rational, y⟩
  | .binary bits => (sqrtTo? bits r x.value).map fun y => ⟨.binary bits, y⟩

def floor (x : Number) : Number := ofExt x.kind .down x.value.floor

def ceil (x : Number) : Number := ofExt x.kind .up x.value.ceil

end Number

namespace Double

/-- The rationals that round to a positive double: they reach halfway to the
neighbours, and include the halfway points when the significand is even. -/
def window (q : Rat) : Decimal.Window :=
  let unit := Binary.pow2 (unitExponent q)
  let gapBelow := match below (.fin q) with
    | .fin y => q - y
    | _ => unit
  { low := q - gapBelow / 2
    centre := q
    high := q + unit / 2
    closed := (q / unit).num % 2 = 0 }

def shortest (q : Rat) : Decimal.Scaled :=
  ((window q).shortest 17).getD ⟨0, 0⟩

/-- A positive double is written positionally from `10 ^ -4` up to `10 ^ 16`, and with a
power of ten outside. -/
def magnitudeText (q : Rat) : String :=
  let decimal := shortest q
  String.ofList <|
    if q < Decimal.pow10 (-4) ∨ Decimal.pow10 16 ≤ q then decimal.scientific
    else decimal.positional

def text : ExtRat → String
  | .posInf => "inf"
  | .negInf => "-inf"
  | .fin q =>
    if q = 0 then "0.0"
    else if q < 0 then "-" ++ magnitudeText (-q)
    else magnitudeText q

end Double

namespace Binary

/-- The decimal expansion of the magnitude of a rational whose denominator is a power of
two: `n / 2 ^ k` is `n · 5 ^ k / 10 ^ k`. -/
def expansion (q : Rat) : Decimal.Scaled :=
  let k := q.den.log2
  ⟨q.num.natAbs * Nat.pow 5 k, -(k : Int)⟩

def text : ExtRat → String
  | .posInf => "inf"
  | .negInf => "-inf"
  | .fin q =>
    let magnitude := String.ofList (expansion q).positional
    if q < 0 then "-" ++ magnitude else magnitude

end Binary

def Number.text (x : Number) : String :=
  match x.kind with
  | .double => Double.text x.value
  | .rational => x.value.text
  | .binary _ => Binary.text x.value

end Enclosure
