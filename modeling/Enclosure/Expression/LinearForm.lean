import Enclosure.Checked
import Enclosure.Space

/-!
# Linear forms

A linear form is a constant plus a sum of coefficients times dimensions.
-/

namespace Enclosure

inductive Terms
  | dense (cs : List Coefficient)
  | sparse (entries : List (Nat × Coefficient))
  deriving DecidableEq

namespace Terms

def entries : Terms → List (Nat × Coefficient)
  | dense cs => cs.zipIdx.map fun (c, d) => (d, c)
  | sparse es => es

def insert (d : Nat) (c : Coefficient) : List (Nat × Coefficient) → List (Nat × Coefficient)
  | [] => [(d, c)]
  | (e, x) :: rest =>
    if d < e then (d, c) :: (e, x) :: rest
    else if d = e then (d, c) :: rest
    else (e, x) :: insert d c rest

/-- The sparse terms with the given coefficients; a later one replaces an earlier one for
the same dimension. -/
def ofList (es : List (Nat × Coefficient)) : Terms :=
  sparse (es.foldl (fun acc (d, c) => insert d c acc) [])

end Terms

structure LinearForm where
  constant : Coefficient
  terms : Terms
  deriving DecidableEq

def boundAt (bounds : List Interval) (k : Kind) (d : Nat) : Except Failure Interval := do
  (← fetch bounds d).convertTo k

/-- A text in which `+ -` is written `- `, so that negative summands read as differences. -/
def mergeSigns : List Char → List Char
  | '+' :: ' ' :: '-' :: cs => '-' :: ' ' :: mergeSigns cs
  | c :: cs => c :: mergeSigns cs
  | [] => []

namespace LinearForm

def zero : LinearForm := ⟨.zero .double, .sparse []⟩

def zeros (n : Nat) : LinearForm := ⟨.zero .double, .dense (List.replicate n (.zero .double))⟩

def ofTerms (es : List (Nat × Coefficient)) (c : Coefficient) : LinearForm := ⟨c, .ofList es⟩

def isDense (f : LinearForm) : Bool :=
  match f.terms with
  | .dense _ => true
  | .sparse _ => false

def entries (f : LinearForm) : List (Nat × Coefficient) := f.terms.entries

def coefficient? (f : LinearForm) (d : Nat) : Option Coefficient := f.entries.lookup d

def setCoefficient (f : LinearForm) (d : Nat) (c : Coefficient) : Except Failure LinearForm :=
  match f.terms with
  | .dense cs =>
    if d < cs.length then .ok ⟨f.constant, .dense (cs.set d c)⟩
    else .error (.dimensionTooHigh .formCoefficient)
  | .sparse es => .ok ⟨f.constant, .sparse (Terms.insert d c es)⟩

def setConstant (f : LinearForm) (c : Coefficient) : LinearForm := ⟨c, f.terms⟩

def denseOfTerms (n : Nat) (es : List (Nat × Coefficient)) (c : Coefficient) :
    Except Failure LinearForm := do
  let f ← es.foldlM (fun f (d, x) => f.setCoefficient d x) (zeros n)
  return f.setConstant c

def nonzero (f : LinearForm) : List (Nat × Coefficient) := f.entries.filter (!·.2.isZero)

def rationalTerms? (f : LinearForm) : Option (List (Nat × Rat)) :=
  f.nonzero.mapM fun (d, c) => c.rational?.map (d, ·)

def isLinear (f : LinearForm) : Bool := f.constant.isExact && f.entries.all (·.2.isExact)

def isQuasilinear (f : LinearForm) : Bool := f.entries.all (·.2.isExact)

def isConstant (f : LinearForm) : Bool := f.nonzero.isEmpty

def isInteger (f : LinearForm) (ints : Nat) : Bool :=
  f.nonzero.all fun (d, c) => d < ints && (c.number?.map (·.isInteger)).getD false

def isReal (f : LinearForm) (ints : Nat) : Bool := f.nonzero.all fun (d, _) => ints ≤ d

def support (f : LinearForm) : Nat := f.entries.foldl (fun n (d, _) => Nat.max n (d + 1)) 0

def neg (f : LinearForm) : LinearForm :=
  { constant := f.constant.neg
    terms := match f.terms with
      | .dense cs => .dense (cs.map (·.neg))
      | .sparse es => .sparse (es.map fun (d, c) => (d, c.neg)) }

def minimize (f : LinearForm) : LinearForm :=
  { constant := f.constant.reduce
    terms := match f.terms with
      | .dense cs => .dense (cs.map (·.reduce))
      | .sparse es => .sparse ((es.filter (!·.2.isZero)).map fun (d, c) => (d, c.reduce)) }

/-- An interval, in kind `k`, that holds all values of the form when each dimension is
within its bound. -/
def eval (f : LinearForm) (bounds : List Interval) (k : Kind) : Except Failure Interval := do
  let start ← f.constant.checkedIntervalOf k
  f.nonzero.foldlM (fun acc (d, c) => do
    let b ← boundAt bounds k d
    return acc.add ((c.toIntervalOf k).mul b)) start

/-- A finite number by which the range of a coefficient is replaced: a bound, or zero
when both are infinite. -/
def weight (i : Interval) : Number :=
  if !i.lo.isInfinite then i.lo
  else if !i.hi.isInfinite then i.hi
  else .zero i.kind

def spreadStep (bounds : List Interval) (k : Kind)
    (state : List (Nat × Coefficient) × Interval) (term : Nat × Coefficient) :
    Except Failure (List (Nat × Coefficient) × Interval) :=
  let keep := (state.1 ++ [(term.1, term.2.reduce)], state.2)
  match term.2 with
  | .exact _ => .ok keep
  | .range i =>
    if i.isPoint then .ok keep
    else do
      let m := weight i
      let rest := (i.sub (.point m)).convert k
      let b ← boundAt bounds k term.1
      return (state.1 ++ [(term.1, .exact m)], state.2.add (rest.mul b))

/-- A form with numbers as coefficients whose values include those of the given form when
each dimension is within its bound. -/
def quasilinearize (f : LinearForm) (bounds : List Interval) (k : Kind) :
    Except Failure LinearForm :=
  if f.isQuasilinear then .ok f
  else do
    let start ← f.constant.checkedIntervalOf k
    let (es, c) ← f.entries.foldlM (spreadStep bounds k) ([], start)
    return ⟨(Coefficient.range c).reduce, .sparse es⟩

def addDimensions (f : LinearForm) (c : SpaceChange) : LinearForm :=
  { constant := f.constant
    terms := match f.terms with
      | .dense cs => .dense (c.insertInto (.zero f.constant.kind) cs)
      | .sparse es => .sparse (es.map fun (d, x) => (c.shift d, x)) }

def permute (f : LinearForm) (p : Permutation) : Except Failure LinearForm :=
  match f.terms with
  | .dense cs => do return ⟨f.constant, .dense (← p.permute cs)⟩
  | .sparse es =>
    if es.all (·.1 < p.size) then .ok ⟨f.constant, .ofList (es.map fun (d, c) => (p.image d, c))⟩
    else .error .outOfRange

def textWith (name : Nat → String) (f : LinearForm) : String :=
  let summands := f.entries.map (fun (d, c) => c.text ++ "·" ++ name d) ++ [f.constant.text]
  String.ofList (mergeSigns (" + ".intercalate summands).toList)

end LinearForm

end Enclosure
