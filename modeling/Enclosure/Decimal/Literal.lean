import Enclosure.Decimal.Notation

/-!
# Decimal literals

A literal is a number such as `-12.5`, `3e-2`, `.5` or `inf`, with blanks allowed on both sides.
-/

namespace Enclosure.Decimal

def isBlank (c : Char) : Bool :=
  let n := c.toNat
  (9 ≤ n ∧ n ≤ 13) ∨ n = 32 ∨ n = 0x85 ∨ n = 0xa0 ∨ n = 0x1680 ∨ (0x2000 ≤ n ∧ n ≤ 0x200a) ∨
    n = 0x2028 ∨ n = 0x2029 ∨ n = 0x202f ∨ n = 0x205f ∨ n = 0x3000

def trimBlanks (cs : List Char) : List Char :=
  ((cs.dropWhile isBlank).reverse.dropWhile isBlank).reverse

def isDigit (c : Char) : Bool := '0' ≤ c ∧ c ≤ '9'

def digitsValue (cs : List Char) : Nat :=
  cs.foldl (fun n c => 10 * n + (c.toNat - '0'.toNat)) 0

def splitSign : List Char → Bool × List Char
  | '-' :: rest => (true, rest)
  | '+' :: rest => (false, rest)
  | cs => (false, cs)

def minInt64 : Int := -9223372036854775808

def maxInt64 : Int := 9223372036854775807

def readInt64? (cs : List Char) : Option Int :=
  let (negative, body) := splitSign cs
  if body.isEmpty || !body.all isDigit then none
  else
    let n : Int := digitsValue body
    let n := if negative then -n else n
    if minInt64 ≤ n ∧ n ≤ maxInt64 then some n else none

inductive Literal
  | infinite (negative : Bool)
  | finite (negative : Bool) (magnitude : Scaled)
  deriving DecidableEq

/-- The part before the first character satisfying `stop`, and the part after it if
there is one. -/
def splitAtFirst (stop : Char → Bool) : List Char → List Char × Option (List Char)
  | [] => ([], none)
  | c :: cs =>
    if stop c then ([], some cs)
    else
      let (front, back) := splitAtFirst stop cs
      (c :: front, back)

def readMantissa? (negative : Bool) (exponent : Int) (cs : List Char) : Option Literal :=
  let (whole, fraction?) := splitAtFirst (· = '.') cs
  let fraction := fraction?.getD []
  if whole.isEmpty && fraction.isEmpty then none
  else if !(whole ++ fraction).all isDigit then none
  else some (.finite negative ⟨digitsValue (whole ++ fraction), exponent - fraction.length⟩)

def Literal.read? (text : String) : Option Literal :=
  let (negative, body) := splitSign (trimBlanks text.toList)
  if body = "inf".toList ∨ body = "infinity".toList then some (.infinite negative)
  else
    match splitAtFirst (fun c => c = 'e' || c = 'E') body with
    | (mantissa, none) => readMantissa? negative 0 mantissa
    | (mantissa, some power) =>
      match readInt64? power with
      | none => none
      | some e => readMantissa? negative e mantissa

def Literal.inRange : Literal → Bool
  | .infinite _ => true
  | .finite _ magnitude => minInt64 < magnitude.exponent

end Enclosure.Decimal
