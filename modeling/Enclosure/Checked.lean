import Enclosure.Coefficient
import Enclosure.Decimal.Literal
import Enclosure.Failure
import Enclosure.Interval.Arithmetic
import Enclosure.Interval.Rounded

/-!
# Arithmetic on numbers of any kind

Numbers, intervals and coefficients that come from outside may be of different kinds.
-/

namespace Enclosure

def agree (operation : Arithmetic) (left right : Kind) : Except Failure Unit :=
  if left.agrees right then .ok () else .error (.kindMismatch operation left right)

def Kind.require : Kind → Except Failure Unit
  | .binary 0 => .error .zeroPrecision
  | _ => .ok ()

namespace Number

def ofDouble : Option ExtRat → Except Failure Number
  | some x => .ok ⟨.double, x⟩
  | none => .error .notANumber

def build (k : Kind) (r : Rounding) (x : ExtRat) : Except Failure Number := do
  k.require
  return ofExt k r x

def convertTo (x : Number) (k : Kind) (r : Rounding) : Except Failure Number := do
  k.require
  return x.convert k r

def infinityOf (k : Kind) (sign : Int) : Except Failure Number := do
  k.require
  return infinity k sign

def checkedAdd (r : Rounding) (a b : Number) : Except Failure Number := do
  agree .add a.kind b.kind
  return a.add r b

def checkedSub (r : Rounding) (a b : Number) : Except Failure Number := checkedAdd r a b.neg

def checkedMul (r : Rounding) (a b : Number) : Except Failure Number := do
  agree .mul a.kind b.kind
  return a.mul r b

def checkedDiv (r : Rounding) (a b : Number) : Except Failure (Option Number) := do
  agree .div a.kind b.kind
  return a.div? r b

def checkedOrder (a b : Number) : Except Failure Ordering := do
  agree .compare a.kind b.kind
  return a.value.order b.value

def checkedMin (a b : Number) : Except Failure Number := do
  agree .compare b.kind a.kind
  return a.min b

def checkedMax (a b : Number) : Except Failure Number := do
  agree .compare b.kind a.kind
  return a.max b

/-- The binary float that a literal denotes, rounded in direction `r`; `none` when the
text is no literal. -/
def readLiteral (bits : Nat) (r : Rounding) (text : String) : Except Failure (Option Number) :=
  match Decimal.Literal.read? text with
  | none => .ok none
  | some literal => do
    if !literal.inRange then throw .outOfRange
    match literal with
    | .infinite negative => some <$> infinityOf (.binary bits) (if negative then -1 else 1)
    | .finite negative magnitude =>
      some <$> build (.binary bits) r (.fin (if negative then -magnitude.value else magnitude.value))

end Number

namespace Interval

def build (lo hi : Number) : Except Failure Interval :=
  if lo.kind = hi.kind then .ok ⟨lo, hi⟩ else .error .boundKindMismatch

def topOf (k : Kind) : Except Failure Interval := do
  k.require
  return top k

def bottomOf (k : Kind) : Except Failure Interval := do
  k.require
  return bottom k

def convertTo (i : Interval) (k : Kind) : Except Failure Interval := do
  k.require
  return i.convert k

/-- Refuses two intervals of kinds that do not match, unless the answer is known already. -/
def agreeUnless (known : Bool) (operation : Arithmetic) (a b : Interval) : Except Failure Unit :=
  if known then .ok () else agree operation a.kind b.kind

def eitherEmpty (a b : Interval) : Bool := a.isEmpty || b.isEmpty

def checkedLeq (a b : Interval) : Except Failure Bool := do
  agreeUnless (a.eitherEmpty b) .compare b a
  return a.leq b

def checkedSame (a b : Interval) : Except Failure Bool := do
  agreeUnless (a.isEmpty && b.isEmpty) .compare a b
  return a.same b

def checkedOrder (a b : Interval) : Except Failure (Option Ordering) := do
  agreeUnless (a.eitherEmpty b) .compare b a
  return a.order? b

def checkedMeet (a b : Interval) : Except Failure Interval := do
  agree .compare b.kind a.kind
  return a.meet b

def checkedJoin (a b : Interval) : Except Failure Interval := do
  agreeUnless (a.eitherEmpty b) .compare b a
  return a.join b

def checkedWidening (a b : Interval) : Except Failure Interval := do
  agreeUnless (a.eitherEmpty b) .compare b a
  return a.widening b

def checkedAdd (a b : Interval) : Except Failure Interval := do
  agreeUnless (a.eitherEmpty b) .add a b
  return a.add b

def checkedSub (a b : Interval) : Except Failure Interval := checkedAdd a b.neg

def checkedMul (a b : Interval) : Except Failure Interval := do
  agreeUnless (a.eitherEmpty b) .mul a b
  return a.mul b

def checkedScale (a : Interval) (x : Number) : Except Failure Interval := checkedMul a (point x)

def checkedDiv (a b : Interval) : Except Failure Interval := do
  agreeUnless (a.eitherEmpty b || b.containsZero) .div a b
  return a.div b

def checkedModulo (a b : Interval) : Except Failure Interval := do
  let known := a.eitherEmpty b || b.containsZero
  if 0 ≤ a.lo.sign || a.hi.sign ≤ 0 then agreeUnless known .compare a b
  else agreeUnless known .compare b a
  let result := a.modulo b
  build result.lo result.hi

def checkedRoundFloat (format : ResultFormat) (policy : RoundingPolicy) (i : Interval) :
    Except Failure Interval :=
  match format.float? with
  | some f => .ok (i.roundFloat f policy)
  | none => .error .notFloatingPoint

end Interval

namespace Coefficient

def checkedIntervalOf (c : Coefficient) (k : Kind) : Except Failure Interval := do
  k.require
  return c.toIntervalOf k

def checkedSame : Coefficient → Coefficient → Except Failure Bool
  | exact a, exact b => return (← a.checkedOrder b) = .eq
  | range a, range b => a.checkedSame b
  | _, _ => .error .coefficientMismatch

def checkedOrder : Coefficient → Coefficient → Except Failure (Option Ordering)
  | exact a, exact b => return some (← a.checkedOrder b)
  | range a, range b => a.checkedOrder b
  | _, _ => .error .coefficientMismatch

end Coefficient

end Enclosure
