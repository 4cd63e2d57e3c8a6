/-!
# Rationals with two infinities

`ExtRat` is the value type behind every number of the library: an exact rational, or one of the two
infinities.
-/

namespace Enclosure

inductive ExtRat
  | negInf
  | fin (q : Rat)
  | posInf
  deriving DecidableEq

namespace ExtRat

def zero : ExtRat := fin 0

def one : ExtRat := fin 1

instance : Inhabited ExtRat := ⟨zero⟩

def infinity (sign : Int) : ExtRat :=
  if 0 < sign then posInf else if sign < 0 then negInf else zero

def ofParts (num den : Int) : Option ExtRat :=
  if den = 0 then
    if num = 0 then none else some (infinity num)
  else
    some (fin (Rat.divInt num den))

def fin? : ExtRat → Option Rat
  | fin q => some q
  | _ => none

def isFinite (x : ExtRat) : Bool := x.fin?.isSome

def sign : ExtRat → Int
  | negInf => -1
  | posInf => 1
  | fin q => if 0 < q then 1 else if q < 0 then -1 else 0

def infinitySign : ExtRat → Int
  | negInf => -1
  | posInf => 1
  | fin _ => 0

def isZero (x : ExtRat) : Bool := x.sign = 0

def isInteger : ExtRat → Bool
  | fin q => q.den = 1
  | _ => false

def le : ExtRat → ExtRat → Prop
  | negInf, _ => True
  | _, posInf => True
  | fin a, fin b => a ≤ b
  | _, _ => False

instance : LE ExtRat := ⟨le⟩

instance : LT ExtRat := ⟨fun a b => ¬ b ≤ a⟩

instance decidableLe : (a b : ExtRat) → Decidable (a ≤ b)
  | negInf, negInf => isTrue trivial
  | negInf, fin _ => isTrue trivial
  | negInf, posInf => isTrue trivial
  | fin _, negInf => isFalse id
  | fin a, fin b => inferInstanceAs (Decidable (a ≤ b))
  | fin _, posInf => isTrue trivial
  | posInf, negInf => isFalse id
  | posInf, fin _ => isFalse id
  | posInf, posInf => isTrue trivial

instance decidableLt (a b : ExtRat) : Decidable (a < b) :=
  inferInstanceAs (Decidable (¬ b ≤ a))

def min (a b : ExtRat) : ExtRat := if b < a then b else a

def max (a b : ExtRat) : ExtRat := if a < b then b else a

def order (a b : ExtRat) : Ordering :=
  if a < b then .lt else if b < a then .gt else .eq

def neg : ExtRat → ExtRat
  | negInf => posInf
  | fin q => fin (-q)
  | posInf => negInf

def abs : ExtRat → ExtRat
  | fin q => fin q.abs
  | _ => posInf

def add? : ExtRat → ExtRat → Option ExtRat
  | fin a, fin b => some (fin (a + b))
  | posInf, negInf => none
  | negInf, posInf => none
  | fin _, y => some y
  | x, _ => some x

def sub? (x y : ExtRat) : Option ExtRat := x.add? y.neg

def mul : ExtRat → ExtRat → ExtRat
  | fin a, fin b => fin (a * b)
  | x, y => infinity (x.sign * y.sign)

def div? : ExtRat → ExtRat → Option ExtRat
  | fin a, fin b =>
    if b = 0 then
      if a = 0 then none else some (infinity (sign (fin a)))
    else
      some (fin (a / b))
  | fin _, _ => some zero
  | x, fin b => some (if b < 0 then x.neg else x)
  | _, _ => none

def floor : ExtRat → ExtRat
  | fin q => fin q.floor
  | x => x

def ceil : ExtRat → ExtRat
  | fin q => fin q.ceil
  | x => x

def half (x : ExtRat) : ExtRat := x.mul (fin (mkRat 1 2))

def twice (x : ExtRat) : ExtRat := x.mul (fin 2)

end ExtRat

def ratText (q : Rat) : String :=
  if q.den = 1 then toString q.num else toString q.num ++ "/" ++ toString q.den

def ExtRat.text : ExtRat → String
  | .negInf => "-1/0"
  | .posInf => "1/0"
  | .fin q => ratText q

end Enclosure
