import Enclosure.Interval

/-!
# Interval arithmetic

Lower bounds are rounded down and upper bounds up, so the result of an operation holds every value
that members of the operands can give.
-/

namespace Enclosure.Interval

def add (a b : Interval) : Interval :=
  if a.isEmpty || b.isEmpty then bottom a.kind
  else ⟨a.lo.add .down b.lo, a.hi.add .up b.hi⟩

def sub (a b : Interval) : Interval := a.add b.neg

def least (w x y z : Number) : Number := ((w.min x).min y).min z

def greatest (w x y z : Number) : Number := ((w.max x).max y).max z

def mul (a b : Interval) : Interval :=
  if a.isEmpty || b.isEmpty then bottom a.kind
  else
    ⟨least (a.lo.mul .down b.lo) (a.lo.mul .down b.hi) (a.hi.mul .down b.lo) (a.hi.mul .down b.hi),
      greatest (a.lo.mul .up b.lo) (a.lo.mul .up b.hi) (a.hi.mul .up b.lo) (a.hi.mul .up b.hi)⟩

def scale (a : Interval) (x : Number) : Interval := a.mul (point x)

/-- Widens the running bounds by the quotient of two bounds; the quotient of two
infinities leaves nothing known. -/
def includeQuotient (i : Interval) (x y : Number) : Option Interval :=
  match x.div? .down y, x.div? .up y with
  | some l, some h => some ⟨i.lo.min l, i.hi.max h⟩
  | _, _ => none

def div (a b : Interval) : Interval :=
  let k := a.kind
  if a.isEmpty || b.isEmpty || b.isZero then bottom k
  else if b.containsZero then top k
  else
    let start : Interval := ⟨.infinity k 1, .infinity k (-1)⟩
    let pairs := [(a.lo, b.lo), (a.lo, b.hi), (a.hi, b.lo), (a.hi, b.hi)]
    (pairs.foldlM (fun i p => includeQuotient i p.1 p.2) start).getD (top k)

def sqrt (a : Interval) : Interval :=
  let k := a.kind
  let domain := a.meet ⟨.zero k, .infinity k 1⟩
  if domain.isEmpty then bottom k
  else
    match domain.lo.sqrt? .down, domain.hi.sqrt? .up with
    | some lo, some hi => ⟨lo, hi⟩
    | _, _ => top k

def powerLimit : Nat := 256

def powerBySquaring (r : Rounding) (base acc : Number) (n : Nat) : Number :=
  if h : n = 0 then acc
  else
    let acc := if n % 2 = 1 then acc.mul r base else acc
    if n / 2 = 0 then acc else powerBySquaring r (base.mul r base) acc (n / 2)
termination_by n
decreasing_by omega

def magnitudePower (x : Number) (n : Nat) (upward : Bool) : Number :=
  let m := x.abs
  let one := Number.one x.kind
  if n ≤ powerLimit then
    powerBySquaring (if upward then .up else .down) m one n
  else
    match upward, decide (m ≤ one) with
    | true, true => m
    | false, false => m
    | true, false => .infinity x.kind 1
    | false, true => .zero x.kind

def signedPower (x : Number) (n : Nat) (upward : Bool) : Number :=
  if x.sign < 0 && n % 2 = 1 then (magnitudePower x n (!upward)).neg
  else magnitudePower x n upward

def exponent? (e : Interval) : Option Nat :=
  match e.lo.value with
  | .fin q => if e.isPoint && q.den = 1 && 0 ≤ q then some q.num.toNat else none
  | _ => none

def pow (a e : Interval) : Interval :=
  let k := a.kind
  if a.isEmpty || e.isEmpty then bottom k
  else
    match exponent? e with
    | none => top k
    | some n =>
      if n = 0 then point (.one k)
      else if n % 2 = 1 || 0 ≤ a.lo.sign then
        ⟨signedPower a.lo n false, signedPower a.hi n true⟩
      else if a.hi.sign ≤ 0 then
        ⟨signedPower a.hi n false, signedPower a.lo n true⟩
      else
        ⟨.zero k, (signedPower a.lo n true).max (signedPower a.hi n true)⟩

/-- The remainder of truncated division, which has the sign of the dividend and a magnitude below
that of the divisor. -/
def modulo (a b : Interval) : Interval :=
  let k := a.kind
  if a.isEmpty || b.isEmpty then bottom k
  else if b.containsZero then top k
  else
    let most := b.lo.abs.max b.hi.abs
    let least := b.lo.abs.min b.hi.abs
    if 0 ≤ a.lo.sign then
      if a.hi < least then a else ⟨.zero k, a.hi.min most⟩
    else if a.hi.sign ≤ 0 then
      if least.neg < a.lo then a else ⟨a.lo.max most.neg, .zero k⟩
    else ⟨a.lo.max most.neg, a.hi.min most⟩

end Enclosure.Interval
