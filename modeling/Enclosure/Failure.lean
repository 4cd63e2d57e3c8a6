import Enclosure.Kind
import Enclosure.Operation
import Enclosure.Operator

/-!
# Failures

What can go wrong, by cause.
-/

namespace Enclosure

inductive Arithmetic
  | add
  | mul
  | div
  | compare
  deriving DecidableEq

inductive DomainName
  | box
  | octagon
  | polyhedra
  deriving DecidableEq

inductive DomainOperation
  | ofBox
  | isLeq
  | boundDimension
  | meet
  | join
  | widening
  | removeDimensions
  | permuteDimensions
  | forget
  | assignForms
  | assignTerms
  | substituteForms
  deriving DecidableEq

inductive Place
  | domain (name : DomainName) (operation : DomainOperation)
  | anyDomain (operation : DomainOperation)
  | boxBounds
  | polyhedronRows
  | permutation
  | formCoefficient
  | scopedForm
  | scopedTerm
  | scopedLinearConstraint
  | scopedTermConstraint
  | relaxation
  deriving DecidableEq

inductive Failure
  | duplicateVariable (name : String)
  | unknownVariable (name : String)
  | invalidRenaming (name : String)
  | incompatibleEnvironment (name : String)
  | constrainedVariable (name : String)
  | arityMismatch (vars exprs : Nat)
  | kindMismatch (operation : Arithmetic) (left right : Kind)
  | boundKindMismatch
  | coefficientMismatch
  | undefinedRational
  | notANumber
  | noRationalValue
  | zeroPrecision
  | zeroBoxPrecision
  | notFloatingPoint
  | dimensionCount
  | unsortedDimensions
  | notAPermutation
  | missingOperand (operator : BinaryOperator)
  | extraOperand (operator : UnaryOperator)
  | dimensionTooHigh (place : Place)
  | sizeMismatch (place : Place)
  | lengthMismatch (place : Place)
  | removedTooHigh (place : Place)
  | managerMismatch (operation : String)
  | aborted (condition : Condition) (operation : OperationId) (note : String)
  | malformed (text : String)
  | outOfRange
  deriving DecidableEq

def Arithmetic.label : Arithmetic → String
  | add => "add"
  | mul => "mul"
  | div => "div"
  | compare => "partial_cmp"

def DomainName.label : DomainName → String
  | box => "BoxDomain"
  | octagon => "OctagonDomain"
  | polyhedra => "PolyhedraDomain"

def DomainOperation.label : DomainOperation → String
  | ofBox => "of_box"
  | isLeq => "is_leq"
  | boundDimension => "bound_dimension"
  | meet => "meet"
  | join => "join"
  | widening => "widening"
  | removeDimensions => "remove_dimensions"
  | permuteDimensions => "permute_dimensions"
  | forget => "forget"
  | assignForms => "assign_linexpr_array"
  | assignTerms => "assign_texpr_array"
  | substituteForms => "substitute_linexpr_array"

def Place.label : Place → String
  | domain name operation => name.label ++ "::" ++ operation.label
  | anyDomain operation => "DomainBackend::" ++ operation.label
  | boxBounds => "BoxValue::from_vec"
  | polyhedronRows => "Polyhedron::from_rows"
  | permutation => "DimPerm::permute"
  | formCoefficient => "LinExpr0::set_coeff"
  | scopedForm => "LinExpr::from_expr0"
  | scopedTerm => "TreeExpr::new"
  | scopedLinearConstraint => "Lincons::from_cons0"
  | scopedTermConstraint => "Tcons::from_cons0"
  | relaxation => "LinearConstraint::relax"

def Failure.name? : Failure → Option String
  | duplicateVariable _ => some "DuplicateVariable"
  | unknownVariable _ => some "UnknownVariable"
  | invalidRenaming _ => some "InvalidRenaming"
  | incompatibleEnvironment _ => some "IncompatibleEnvironment"
  | constrainedVariable _ => some "ConstrainedVariable"
  | arityMismatch _ _ => some "ArityMismatch"
  | _ => none

def Failure.message : Failure → Option String
  | duplicateVariable name => some ("duplicate variable: " ++ name)
  | unknownVariable name => some ("unknown variable: " ++ name)
  | invalidRenaming name => some ("invalid renaming: " ++ name ++ " is used twice")
  | incompatibleEnvironment name =>
    some ("incompatible environments: " ++ name ++ " is typed differently")
  | constrainedVariable name =>
    some ("variable " ++ name ++ " is constrained and cannot be dropped without projection")
  | arityMismatch vars exprs =>
    some ("arity mismatch: " ++ toString vars ++ " variables but " ++
      toString exprs ++ " expressions")
  | kindMismatch operation left right =>
    some ("Mismatched scalar kinds in Scalar::" ++ operation.label ++ ": " ++ left.label ++
      " and " ++ right.label)
  | boundKindMismatch => some "Mismatched bound kinds in Interval::new"
  | coefficientMismatch =>
    some "Mismatched coefficient kinds: scalar compared with interval"
  | undefinedRational => some "Undefined rational 0/0 in Mpq::from_parts"
  | notANumber => some "NaN scalar in Scalar::double"
  | noRationalValue => some "NaN has no rational value in Mpq::from_f64"
  | zeroPrecision => some "Zero precision in Mpfr"
  | zeroBoxPrecision => some "Zero precision in BoxDomain::mpfr"
  | notFloatingPoint => some "Interval::round_float needs a floating point type"
  | dimensionCount => some "Mismatched dimension count in DimChange::new"
  | unsortedDimensions => some "Unsorted dimensions in DimChange::new"
  | notAPermutation => some "Not a permutation in DimPerm::new"
  | missingOperand operator =>
    some ("Binary operator " ++ operator.label ++ " given one argument")
  | extraOperand operator =>
    some ("Unary operator " ++ operator.label ++ " given two arguments")
  | dimensionTooHigh place => some ("Dimension too high in " ++ place.label)
  | sizeMismatch place => some ("Mismatched dimensionality in " ++ place.label)
  | lengthMismatch place => some ("Mismatched lengths in " ++ place.label)
  | removedTooHigh place =>
    some ("Attempting to remove too high a dimension in " ++ place.label)
  | managerMismatch operation => some ("Mismatched managers in AbstractValue::" ++ operation)
  | aborted condition operation note =>
    some ("Aborting on " ++ condition.label ++ " in " ++ operation.label ++ ": " ++ note)
  | malformed text => some ("malformed text: " ++ text)
  | outOfRange => none

def fetch {α : Type} (xs : List α) (i : Nat) : Except Failure α :=
  match xs[i]? with
  | some x => .ok x
  | none => .error .outOfRange

end Enclosure
