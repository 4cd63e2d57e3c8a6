import Enclosure.Interval

/-!
# Coefficients

The weight of a variable, or a constant: one number, or a range of numbers.
-/

namespace Enclosure

inductive Coefficient
  | exact (x : Number)
  | range (i : Interval)
  deriving DecidableEq

namespace Coefficient

def rational (q : Rat) : Coefficient := exact (.rational (.fin q))

def zero (k : Kind) : Coefficient := exact (.zero k)

def kind : Coefficient → Kind
  | exact x => x.kind
  | range i => i.kind

def isExact : Coefficient → Bool
  | exact _ => true
  | range _ => false

def isZero : Coefficient → Bool
  | exact x => x.isZero
  | range i => i.isZero

def number? : Coefficient → Option Number
  | exact x => some x
  | range _ => none

def rational? (c : Coefficient) : Option Rat := c.number?.bind (·.value.fin?)

def toInterval : Coefficient → Interval
  | exact x => .point x
  | range i => i

def toIntervalOf (k : Kind) : Coefficient → Interval
  | exact x => ⟨x.convert k .down, x.convert k .up⟩
  | range i => i.convert k

def reduce : Coefficient → Coefficient
  | exact x => exact x
  | range i => if i.isPoint then exact i.lo else range i

def neg : Coefficient → Coefficient
  | exact x => exact x.neg
  | range i => range i.neg

def text : Coefficient → String
  | exact x => x.text
  | range i => i.text

end Coefficient

end Enclosure
