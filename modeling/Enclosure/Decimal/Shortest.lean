import Enclosure.Binary
import Enclosure.Decimal.Notation

/-!
# Shortest decimals

Given an interval around a positive value, the shortest decimal is the one with the fewest digits
among those in the interval, and the nearest to the value among those; of two equally near ones the
larger is taken.
-/

namespace Enclosure.Decimal

def floorLog10 (q : Rat) : Int :=
  let guess := (Binary.floorLog2 q.num.natAbs q.den * 30103).fdiv 100000
  if q < pow10 guess then guess - 1
  else if pow10 (guess + 1) ≤ q then guess + 1
  else guess

structure Window where
  low : Rat
  centre : Rat
  high : Rat
  closed : Bool

namespace Window

def admits (w : Window) (q : Rat) : Bool :=
  if w.closed then w.low ≤ q ∧ q ≤ w.high else w.low < q ∧ q < w.high

/-- The neighbour of the centre on the grid of step `10 ^ e` that the window admits,
the nearer one if it admits both. -/
def onGrid (w : Window) (e : Int) : Option Scaled :=
  let step := pow10 e
  let lower : Scaled := ⟨(w.centre / step).floor.toNat, e⟩
  let upper : Scaled := ⟨lower.digits + 1, e⟩
  match w.admits lower.value, w.admits upper.value with
  | true, true =>
    if w.centre - lower.value < upper.value - w.centre then some lower else some upper
  | true, false => some lower
  | false, true => some upper
  | false, false => none

def shortest (w : Window) (limit : Nat) : Option Scaled :=
  let lead := floorLog10 w.centre
  ((List.range limit).findSome? fun (n : Nat) => w.onGrid (lead - (n : Int))).map Scaled.dropZero

end Window

end Enclosure.Decimal
