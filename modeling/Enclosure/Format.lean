import Enclosure.Rounding

/-!
# Result formats and rounding policies

A node of a term rounds its exact result to a format: not at all, to the integers, or to a floating
point format.
-/

namespace Enclosure

inductive ResultFormat
  | real
  | integer
  | single
  | double
  | extended
  | quad
  deriving DecidableEq

def ResultFormat.label : ResultFormat → String
  | real => "real"
  | integer => "int"
  | single => "single"
  | double => "double"
  | extended => "extended"
  | quad => "quad"

def ResultFormat.all : List ResultFormat := [real, integer, single, double, extended, quad]

structure FloatFormat where
  precision : Nat
  maxExponent : Nat
  deriving DecidableEq

def ResultFormat.float? : ResultFormat → Option FloatFormat
  | real => none
  | integer => none
  | single => some ⟨24, 127⟩
  | double => some ⟨53, 1023⟩
  | extended => some ⟨64, 16383⟩
  | quad => some ⟨113, 16383⟩

def FloatFormat.maxFinite (f : FloatFormat) : Rat :=
  (((1 <<< f.precision) - 1) <<< (f.maxExponent + 1 - f.precision) : Nat)

inductive RoundingPolicy
  | nearest
  | zero
  | up
  | down
  | varying
  | unknown
  deriving DecidableEq

def RoundingPolicy.label : RoundingPolicy → String
  | nearest => "nearest"
  | zero => "zero"
  | up => "up"
  | down => "down"
  | varying => "rnd"
  | unknown => "any"

def RoundingPolicy.all : List RoundingPolicy := [nearest, zero, up, down, varying, unknown]

def RoundingPolicy.extremes : RoundingPolicy → Rounding × Rounding
  | nearest => (.nearest, .nearest)
  | zero => (.zero, .zero)
  | up => (.up, .up)
  | down => (.down, .down)
  | varying => (.down, .up)
  | unknown => (.down, .up)

end Enclosure
