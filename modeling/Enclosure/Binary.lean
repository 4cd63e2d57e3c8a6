import Enclosure.Rounding

/-!
# Rounding to a binary grid

A binary float of `p` bits is an integer multiple of a power of two whose multiplier stays below `2
^ p`.
-/

namespace Enclosure.Binary

def scale (n d : Nat) (e : Int) : Nat × Nat :=
  if 0 ≤ e then (n, d <<< e.toNat) else (n <<< (-e).toNat, d)

def floorLog2 (n d : Nat) : Int :=
  let l : Int := (n.log2 : Int) - (d.log2 : Int)
  let scaled := scale n d l
  if scaled.2 ≤ scaled.1 then l else l - 1

def pow2 (e : Int) : Rat :=
  if 0 ≤ e then ((1 <<< e.toNat : Nat) : Rat) else mkRat 1 (1 <<< (-e).toNat)

/-- The integer to which `num / den` is rounded, as the magnitude of a value of the
given sign. -/
def settle (r : Rounding) (negative : Bool) (num den : Nat) : Nat :=
  let whole := num / den
  let rest := num % den
  if rest = 0 then whole
  else
    match r with
    | .nearest =>
      if den < 2 * rest ∨ (2 * rest = den ∧ whole % 2 = 1) then whole + 1 else whole
    | _ => if r.enlarges negative then whole + 1 else whole

def roundAt (e : Int) (r : Rounding) (q : Rat) : Rat :=
  let negative : Bool := q < 0
  let scaled := scale q.num.natAbs q.den e
  let magnitude := (settle r negative scaled.1 scaled.2 : Rat) * pow2 e
  if negative then -magnitude else magnitude

def lastPlace (p : Nat) (q : Rat) : Int :=
  floorLog2 q.num.natAbs q.den - ((p : Int) - 1)

def round (p : Nat) (r : Rounding) (q : Rat) : Rat :=
  if q = 0 then 0 else roundAt (lastPlace p q) r q

def settleSqrt (r : Rounding) (num den : Nat) : Nat :=
  let whole := (num / den).sqrt
  if whole * whole * den = num then whole
  else
    match r with
    | .nearest =>
      let middle := (2 * whole + 1) * (2 * whole + 1) * den
      if middle < 4 * num ∨ (4 * num = middle ∧ whole % 2 = 1) then whole + 1 else whole
    | _ => if r.enlarges false then whole + 1 else whole

def sqrt (p : Nat) (r : Rounding) (q : Rat) : Rat :=
  if q = 0 then 0
  else
    let n := q.num.natAbs
    let d := q.den
    let e := (floorLog2 n d).fdiv 2 - ((p : Int) - 1)
    let scaled := scale n d (2 * e)
    (settleSqrt r scaled.1 scaled.2 : Rat) * pow2 e

end Enclosure.Binary
