import Enclosure.Checked

/-!
# Texts of numbers

Numbers are exchanged as texts that say how they are represented.
-/

namespace Enclosure

def splitText (mark : Char) (s : String) : String × Option String :=
  let (front, back) := Decimal.splitAtFirst (· = mark) s.toList
  (String.ofList front, back.map String.ofList)

def readInteger (s : String) : Except Failure Int :=
  let (negative, body) := Decimal.splitSign s.toList
  if body.isEmpty || !body.all Decimal.isDigit then .error (.malformed s)
  else
    let n : Int := Decimal.digitsValue body
    .ok (if negative then -n else n)

def ExtRat.read (s : String) : Except Failure ExtRat := do
  let (num, den) := splitText '/' s
  let n ← readInteger num
  let d ← match den with
    | some text => readInteger text
    | none => pure 1
  match ofParts n d with
  | some x => return x
  | none => throw .undefinedRational

def hexDigit? (c : Char) : Option Nat :=
  let n := c.toNat
  if Decimal.isDigit c then some (n - '0'.toNat)
  else if 'a'.toNat ≤ n ∧ n ≤ 'f'.toNat then some (n - 'a'.toNat + 10)
  else if 'A'.toNat ≤ n ∧ n ≤ 'F'.toNat then some (n - 'A'.toNat + 10)
  else none

def Double.read (s : String) : Except Failure (Option ExtRat) :=
  match s.toList with
  | '0' :: 'x' :: digits =>
    match digits.mapM hexDigit? with
    | some ds => .ok (ofBits? (ds.foldl (fun n d => 16 * n + d) 0))
    | none => .error (.malformed s)
  | _ =>
    if s = "nan" then .ok none
    else
      match Decimal.Literal.read? s with
      | some (.infinite negative) => .ok (some (if negative then .negInf else .posInf))
      | some (.finite negative m) => .ok (some (nearest (if negative then -m.value else m.value)))
      | none => .error (.malformed s)

def Double.readNumber (s : String) : Except Failure ExtRat := do
  match ← Double.read s with
  | some x => return x
  | none => throw .noRationalValue

def Kind.read (s : String) : Except Failure Kind :=
  match s.toList with
  | 'm' :: 'p' :: 'f' :: 'r' :: digits => do
    return .binary (← readInteger (String.ofList digits)).toNat
  | _ =>
    if s = Kind.double.label then .ok .double
    else if s = Kind.rational.label then .ok .rational
    else .error (.malformed s)

namespace Number

def read (s : String) : Except Failure Number := do
  match splitText ':' s with
  | ("d", some body) => ofDouble (← Double.read body)
  | ("q", some body) => return .rational (← ExtRat.read body)
  | (tag, some body) =>
    match tag.toList with
    | 'f' :: digits =>
      let bits ← readInteger (String.ofList digits)
      build (.binary bits.toNat) .nearest (← ExtRat.read body)
    | _ => throw (.malformed s)
  | (_, none) => throw (.malformed s)

def labelled (x : Number) : String := x.kind.label ++ ":" ++ x.text

def withPrecision (x : Number) : String :=
  match x.kind with
  | .binary bits => toString bits ++ ":" ++ x.text
  | _ => x.labelled

end Number

def Interval.readName (s : String) : Except Failure Interval := do
  match splitText ':' s with
  | ("top", some k) => Interval.topOf (← Kind.read k)
  | ("bot", some k) => Interval.bottomOf (← Kind.read k)
  | _ => throw (.malformed s)

def Coefficient.read (s : String) : Except Failure Coefficient :=
  let tag := (splitText ':' s).1
  if tag = "top" ∨ tag = "bot" then .range <$> Interval.readName s else .exact <$> Number.read s

end Enclosure
