import Enclosure.Expression.LinearForm

/-!
# Affine forms over intervals

An affine form is a constant interval plus intervals times dimensions, sorted by dimension.
-/

namespace Enclosure

structure Affine where
  constant : Interval
  terms : List (Nat × Interval)
  deriving DecidableEq

namespace Affine

def ofInterval (i : Interval) : Affine := ⟨i, []⟩

def ofDimension (k : Kind) (d : Nat) : Affine :=
  ⟨.point (.zero k), [(d, .point (.one k))]⟩

def isConstant (a : Affine) : Bool := a.terms.all (·.2.isZero)

def addTerm (d : Nat) (i : Interval) : List (Nat × Interval) → List (Nat × Interval)
  | [] => [(d, i)]
  | (e, x) :: rest =>
    if d < e then (d, i) :: (e, x) :: rest
    else if d = e then (d, x.add i) :: rest
    else (e, x) :: addTerm d i rest

def add (a b : Affine) : Affine :=
  ⟨a.constant.add b.constant, b.terms.foldl (fun acc (d, i) => addTerm d i acc) a.terms⟩

def map (f : Interval → Interval) (a : Affine) : Affine :=
  ⟨f a.constant, a.terms.map fun (d, i) => (d, f i)⟩

def neg (a : Affine) : Affine := a.map (·.neg)

def sub (a b : Affine) : Affine := a.add b.neg

def scale (a : Affine) (i : Interval) : Affine := a.map (·.mul i)

def eval (a : Affine) (bounds : List Interval) (k : Kind) : Except Failure Interval :=
  a.terms.foldlM (fun acc (d, i) => do return acc.add (i.mul (← boundAt bounds k d))) a.constant

def toLinearForm (a : Affine) : LinearForm :=
  ⟨(Coefficient.range a.constant).reduce,
    .sparse (a.terms.map fun (d, i) => (d, (Coefficient.range i).reduce))⟩

/-- The kind to which two forms are brought before they are combined: rational if one of
them is, and else that of the first. -/
def commonKind (a b : Kind) : Kind := if b = .rational then .rational else a

def unify (a b : Affine) : Affine × Affine :=
  let k := commonKind a.constant.kind b.constant.kind
  (a.map (·.convert k), b.map (·.convert k))

end Affine

end Enclosure
