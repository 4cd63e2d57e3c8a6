import Enclosure.Constraint.Comparison
import Enclosure.Scoped

/-!
# Constraints

A linear form or a term, compared with zero.
-/

namespace Enclosure

structure LinearConstraint where
  comparison : Comparison
  form : LinearForm
  modulus : Option Number
  deriving DecidableEq

namespace LinearConstraint

def plain (c : Comparison) (f : LinearForm) : LinearConstraint := ⟨c, f, none⟩

def unsatisfiable : LinearConstraint :=
  plain .atLeast (LinearForm.zero.setConstant (.exact (.ofInt .double .nearest (-1))))

def isUnsatisfiable (c : LinearConstraint) : Bool :=
  c.form.isConstant && c.comparison.excludes c.modulus c.form.constant.toInterval

def isTautology (c : LinearConstraint) : Bool :=
  c.form.isConstant && c.comparison.includes c.form.constant.toInterval

def addDimensions (c : LinearConstraint) (change : SpaceChange) : LinearConstraint :=
  { c with form := c.form.addDimensions change }

def permute (c : LinearConstraint) (p : Permutation) : Except Failure LinearConstraint := do
  return { c with form := ← c.form.permute p }

instance : Dimensional LinearConstraint where
  support c := c.form.support
  addDimensions := addDimensions
  textWith name c := c.form.textWith name ++ c.comparison.tail c.modulus

end LinearConstraint

structure TermConstraint where
  comparison : Comparison
  term : Term
  modulus : Option Number
  deriving DecidableEq

namespace TermConstraint

def ofLinear (c : LinearConstraint) : TermConstraint :=
  ⟨c.comparison, .ofLinearForm c.form, c.modulus⟩

def isUnsatisfiable (c : TermConstraint) : Bool :=
  match c.term with
  | .const k => c.comparison.excludes c.modulus k.toInterval
  | _ => false

def addDimensions (c : TermConstraint) (change : SpaceChange) : TermConstraint :=
  { c with term := c.term.addDimensions change }

def permute (c : TermConstraint) (p : Permutation) : Except Failure TermConstraint := do
  return { c with term := ← c.term.permute p }

instance : Dimensional TermConstraint where
  support c := c.term.support
  addDimensions := addDimensions
  textWith name c := c.term.textWith name ++ c.comparison.tail c.modulus

end TermConstraint

namespace Scoped

def setConstraintConstant (c : Scoped LinearConstraint) (k : Coefficient) :
    Scoped LinearConstraint :=
  c.map fun l => { l with form := l.form.setConstant k }

def setConstraintCoefficient (c : Scoped LinearConstraint) (v : String) (k : Coefficient) :
    Except Failure (Scoped LinearConstraint) := do
  let f ← (c.map (·.form)).setCoefficient v k
  return c.map fun l => { l with form := f.item }

end Scoped

end Enclosure
