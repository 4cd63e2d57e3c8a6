/-!
# Decimal notation

A decimal number is a run of digits times a power of ten.
-/

namespace Enclosure.Decimal

structure Scaled where
  digits : Nat
  exponent : Int
  deriving DecidableEq

def pow10 (e : Int) : Rat :=
  if 0 ≤ e then ((Nat.pow 10 e.toNat : Nat) : Rat) else mkRat 1 (Nat.pow 10 (-e).toNat)

namespace Scaled

def value (x : Scaled) : Rat := (x.digits : Rat) * pow10 x.exponent

def dropZero (x : Scaled) : Scaled :=
  if x.digits % 10 = 0 then ⟨x.digits / 10, x.exponent + 1⟩ else x

def characters (x : Scaled) : List Char := Nat.toDigits 10 x.digits

def point (x : Scaled) : Int := (x.characters.length : Int) + x.exponent

def positional (x : Scaled) : List Char :=
  let cs := x.characters
  let p := x.point
  if p ≤ 0 then ['0', '.'] ++ List.replicate (-p).toNat '0' ++ cs
  else if p < cs.length then cs.take p.toNat ++ ['.'] ++ cs.drop p.toNat
  else cs ++ List.replicate (p - cs.length).toNat '0' ++ ['.', '0']

def scientific (x : Scaled) : List Char :=
  let power := (toString (x.point - 1)).toList
  match x.characters with
  | [] => []
  | [c] => c :: 'e' :: power
  | c :: cs => c :: '.' :: cs ++ 'e' :: power

end Scaled

end Enclosure.Decimal
