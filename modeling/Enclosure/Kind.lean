import Enclosure.Double

/-!
# Kinds of numbers

A number is a double, an exact rational, or a binary float with a chosen number of significant bits.
-/

namespace Enclosure

inductive Kind
  | double
  | rational
  | binary (bits : Nat)
  deriving DecidableEq

namespace Kind

def label : Kind → String
  | double => "double"
  | rational => "mpq"
  | binary bits => "mpfr" ++ toString bits

def round (k : Kind) (r : Rounding) (x : ExtRat) : ExtRat :=
  match k, x with
  | double, _ => Double.round r x
  | binary bits, .fin q => .fin (Binary.round bits r q)
  | _, _ => x

/-- Whether numbers of the two kinds combine: the representation is the same, whatever
the precision. -/
def agrees : Kind → Kind → Bool
  | double, double => true
  | rational, rational => true
  | binary _, binary _ => true
  | _, _ => false

def common : Kind → Kind → Kind
  | binary p, binary q => binary (Nat.max p q)
  | k, _ => k

end Kind

end Enclosure
