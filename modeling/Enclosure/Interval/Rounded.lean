import Enclosure.Format
import Enclosure.Interval

/-!
# Rounding the members of an interval

An operation that rounds to the integers or to a floating point format maps an interval
to the interval of the rounded members.
-/

namespace Enclosure.Interval

def mapBounds (lower upper : Number → Number) (i : Interval) : Interval :=
  if i.isEmpty then i.canonical else ⟨lower i.lo, upper i.hi⟩

def truncate (x : Number) : Number := if 0 ≤ x.sign then x.floor else x.ceil

def nearestBelow (k : Kind) (x : Number) : Number :=
  match x.value with
  | .fin q => .ofExt k .down (.fin (q - mkRat 1 2).ceil)
  | v => .ofExt k .nearest v

def nearestAbove (k : Kind) (x : Number) : Number :=
  match x.value with
  | .fin q => .ofExt k .up (.fin (q + mkRat 1 2).floor)
  | v => .ofExt k .nearest v

def roundInteger (policy : RoundingPolicy) (i : Interval) : Interval :=
  match policy with
  | .up => i.mapBounds Number.ceil Number.ceil
  | .down => i.mapBounds Number.floor Number.floor
  | .zero => i.mapBounds truncate truncate
  | .nearest => i.mapBounds (nearestBelow i.kind) (nearestAbove i.kind)
  | .varying => i.mapBounds Number.floor Number.ceil
  | .unknown => i.mapBounds Number.floor Number.ceil

/-- A lower bound in a floating point format, as a number of kind `k`: it overflows downward
to an infinity, and upward only to the largest finite value. -/
def floatBelow (f : FloatFormat) (r : Rounding) (k : Kind) (x : Number) : Number :=
  let v := Kind.round (.binary f.precision) r x.value
  let v :=
    if v < .fin (-f.maxFinite) then .negInf
    else if .fin f.maxFinite < v then .fin f.maxFinite
    else v
  .ofExt k .down v

/-- An upper bound in a floating point format, as a number of kind `k`: it overflows upward
to an infinity, and downward only to the least finite value. -/
def floatAbove (f : FloatFormat) (r : Rounding) (k : Kind) (x : Number) : Number :=
  let v := Kind.round (.binary f.precision) r x.value
  let v :=
    if .fin f.maxFinite < v then .posInf
    else if v < .fin (-f.maxFinite) then .fin (-f.maxFinite)
    else v
  .ofExt k .up v

def roundFloat (f : FloatFormat) (policy : RoundingPolicy) (i : Interval) : Interval :=
  let (low, high) := policy.extremes
  i.mapBounds (floatBelow f low i.kind) (floatAbove f high i.kind)

def round (format : ResultFormat) (policy : RoundingPolicy) (i : Interval) : Interval :=
  match format with
  | .real => i
  | .integer => i.roundInteger policy
  | _ =>
    match format.float? with
    | some f => i.roundFloat f policy
    | none => i

end Enclosure.Interval
