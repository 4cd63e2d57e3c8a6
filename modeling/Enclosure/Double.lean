import Enclosure.Binary
import Enclosure.ExtRat

/-!
# Double precision

The values of a double are the multiples of `2 ^ -1074` with at most 53 significant bits below `2 ^
1024`, and the two infinities.
-/

namespace Enclosure.Double

open Binary (pow2 floorLog2 roundAt)

def maxFinite : Rat := (((1 <<< 53) - 1 : Nat) : Rat) * pow2 971

def tinyBound : Rat := pow2 (-1020)

def unitExponent (q : Rat) : Int :=
  let e := floorLog2 q.num.natAbs q.den - 52
  if e < -1074 then -1074 else e

def bounded (q : Rat) : ExtRat :=
  if pow2 1024 ≤ q then .posInf else if q ≤ -pow2 1024 then .negInf else .fin q

def nearest (q : Rat) : ExtRat :=
  if q = 0 then .zero else bounded (roundAt (unitExponent q) .nearest q)

def raise (q : Rat) : ExtRat :=
  if q = 0 then .fin (pow2 (-1074)) else bounded (q + pow2 (unitExponent q))

def lower (q : Rat) : Rat :=
  let e := unitExponent q
  if q = pow2 (e + 52) ∧ -1074 < e then q - pow2 (e - 1) else q - pow2 e

def above : ExtRat → ExtRat
  | .posInf => .posInf
  | .negInf => .fin (-maxFinite)
  | .fin q => if 0 ≤ q then raise q else .fin (-lower (-q))

def below (x : ExtRat) : ExtRat := (above x.neg).neg

def overflow (r : Rounding) (x : ExtRat) : ExtRat :=
  match r, x with
  | .down, .posInf => .fin maxFinite
  | .zero, .posInf => .fin maxFinite
  | .up, .negInf => .fin (-maxFinite)
  | .zero, .negInf => .fin (-maxFinite)
  | _, _ => x

/-- A nearest double moved in direction `r`, given how the exact value compares with it. -/
def adjust (r : Rounding) (x : ExtRat) (exactIs : Ordering) : ExtRat :=
  match r, exactIs with
  | .up, .gt => above x
  | .down, .lt => below x
  | .zero, .gt => if x.sign < 0 then above x else x
  | .zero, .lt => if 0 < x.sign then below x else x
  | .away, .gt => if 0 ≤ x.sign then above x else x
  | .away, .lt => if x.sign ≤ 0 then below x else x
  | _, _ => x

def roundFinite (r : Rounding) (q : Rat) : ExtRat :=
  match nearest (Binary.round 53 r q) with
  | .fin y => adjust r (.fin y) ((ExtRat.fin q).order (.fin y))
  | x => overflow r x

def round (r : Rounding) : ExtRat → ExtRat
  | .fin q => roundFinite r q
  | x => x

def approximate : ExtRat → ExtRat
  | .fin q => nearest q
  | x => x

def difference? (x y : ExtRat) : Option ExtRat :=
  (x.sub? y).map approximate

/-- The rounding error of the nearest sum `s` of `a` and `b`, as doubles compute it:
the part of `b` that entered `s` and the part of `a` that did are recovered from `s`
and compared with the operands. -/
def sumError? (a b s : ExtRat) : Option ExtRat := do
  let entered ← difference? s a
  let kept ← difference? s entered
  let left ← difference? a kept
  let right ← difference? b entered
  difference? left right.neg

def add? (r : Rounding) (a b : ExtRat) : Option ExtRat :=
  match a, b with
  | .fin x, .fin y =>
    match nearest (x + y) with
    | .fin s =>
      let exactIs := match sumError? a b (.fin s) with
        | some error => error.order .zero
        | none => .eq
      some (adjust r (.fin s) exactIs)
    | s => some (overflow r s)
  | _, _ => a.add? b

/-- How the exact value `y + error` compares with `y`, where the error is only seen as a double. -/
private def residualOrder (error : Rat) : Ordering := (nearest error).order .zero

def mul (r : Rounding) (a b : ExtRat) : ExtRat :=
  match a, b with
  | .fin x, .fin y =>
    if x = 0 ∨ y = 0 then .zero
    else
      match nearest (x * y) with
      | .fin p =>
        if p.abs < tinyBound then roundFinite r (x * y)
        else adjust r (.fin p) (residualOrder (x * y - p))
      | p => overflow r p
  | _, _ => a.mul b

def div? (r : Rounding) (a b : ExtRat) : Option ExtRat :=
  match a, b with
  | .fin x, .fin y =>
    if y = 0 then (a.div? b).map (round r)
    else
      match nearest (x / y) with
      | .fin q =>
        if q.abs < tinyBound ∨ y.abs < tinyBound then some (roundFinite r (x / y))
        else
          let side := residualOrder (x - q * y)
          some (adjust r (.fin q) (if y < 0 then side.swap else side))
      | q => some (overflow r q)
  | _, _ => (a.div? b).map (round r)

def sqrt? (r : Rounding) (a : ExtRat) : Option ExtRat :=
  match a with
  | .negInf => none
  | .posInf => some .posInf
  | .fin x =>
    if x < 0 then none
    else if x = 0 then some .zero
    else
      let y := Binary.sqrt 53 .nearest x
      some (adjust r (.fin y) (residualOrder (x - y * y)))

def ofBits? (bits : Nat) : Option ExtRat :=
  let fraction := bits % (1 <<< 52)
  let exponent := (bits >>> 52) % 2048
  let negative : Bool := bits >>> 63 = 1
  let magnitude : Option ExtRat :=
    if exponent = 2047 then
      if fraction = 0 then some .posInf else none
    else if exponent = 0 then
      some (.fin ((fraction : Rat) * pow2 (-1074)))
    else
      some (.fin (((1 <<< 52) + fraction : Nat) * pow2 ((exponent : Int) - 1075)))
  if negative then magnitude.map ExtRat.neg else magnitude

end Enclosure.Double
