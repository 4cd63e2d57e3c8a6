import Enclosure.Number

/-!
# Intervals

An interval is a pair of bounds.
-/

namespace Enclosure

structure Interval where
  lo : Number
  hi : Number
  deriving DecidableEq

namespace Interval

def kind (i : Interval) : Kind := i.lo.kind

def point (x : Number) : Interval := ⟨x, x⟩

def top (k : Kind) : Interval := ⟨.infinity k (-1), .infinity k 1⟩

def bottom (k : Kind) : Interval := ⟨.ofInt k .nearest 1, .ofInt k .nearest (-1)⟩

def ofExt (lo hi : ExtRat) : Interval := ⟨.rational lo, .rational hi⟩

def isEmpty (i : Interval) : Bool := i.hi < i.lo

def isTop (i : Interval) : Bool := i.lo.infinitySign < 0 && 0 < i.hi.infinitySign

def isPoint (i : Interval) : Bool := i.lo.same i.hi && !i.lo.isInfinite

def isZero (i : Interval) : Bool := i.lo.isZero && i.hi.isZero

def isBounded (i : Interval) : Bool := !i.lo.isInfinite && !i.hi.isInfinite

def contains (i : Interval) (x : ExtRat) : Bool := i.lo.value ≤ x && x ≤ i.hi.value

def containsZero (i : Interval) : Bool := i.lo.sign ≤ 0 && 0 ≤ i.hi.sign

def leq (a b : Interval) : Bool :=
  if a.isEmpty then true
  else if b.isEmpty then false
  else b.lo ≤ a.lo && a.hi ≤ b.hi

def same (a b : Interval) : Bool :=
  (a.isEmpty && b.isEmpty) || (a.lo.same b.lo && a.hi.same b.hi)

def order? (a b : Interval) : Option Ordering :=
  match a.leq b, b.leq a with
  | true, true => some .eq
  | true, false => some .lt
  | false, true => some .gt
  | false, false => none

def canonical (i : Interval) : Interval := if i.isEmpty then bottom i.kind else i

def meet (a b : Interval) : Interval := canonical ⟨a.lo.max b.lo, a.hi.min b.hi⟩

def join (a b : Interval) : Interval :=
  if a.isEmpty then b
  else if b.isEmpty then a
  else ⟨a.lo.min b.lo, a.hi.max b.hi⟩

def widening (a b : Interval) : Interval :=
  if a.isEmpty then b
  else if b.isEmpty then a
  else
    ⟨if b.lo < a.lo then .infinity a.kind (-1) else a.lo,
      if a.hi < b.hi then .infinity a.kind 1 else a.hi⟩

def convert (i : Interval) (k : Kind) : Interval :=
  if i.kind = k then i
  else if i.isEmpty then bottom k
  else ⟨i.lo.convert k .down, i.hi.convert k .up⟩

def neg (i : Interval) : Interval := ⟨i.hi.neg, i.lo.neg⟩

def text (i : Interval) : String := "[" ++ i.lo.text ++ "," ++ i.hi.text ++ "]"

end Interval

end Enclosure
