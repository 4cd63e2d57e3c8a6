/-!
# Names of operations and conditions

Every operation on abstract values has a name, under which its options are kept and its incidents
are logged.
-/

namespace Enclosure

inductive OperationId
  | unknown
  | top
  | bottom
  | ofBox
  | isBottom
  | isTop
  | isLeq
  | isEq
  | isFree
  | satInterval
  | satLinear
  | satTerm
  | boundDimension
  | boundForm
  | boundTerm
  | toBox
  | toLinear
  | toTerms
  | meet
  | meetAll
  | meetLinear
  | meetTerms
  | join
  | joinAll
  | assignForms
  | substituteForms
  | assignTerms
  | substituteTerms
  | forget
  | widening
  | changeEnvironment
  | rename
  deriving DecidableEq

def OperationId.label : OperationId → String
  | unknown => "Unknown"
  | top => "Top"
  | bottom => "Bottom"
  | ofBox => "OfBox"
  | isBottom => "IsBottom"
  | isTop => "IsTop"
  | isLeq => "IsLeq"
  | isEq => "IsEq"
  | isFree => "IsDimensionUnconstrained"
  | satInterval => "SatInterval"
  | satLinear => "SatLincons"
  | satTerm => "SatTcons"
  | boundDimension => "BoundDimension"
  | boundForm => "BoundLinexpr"
  | boundTerm => "BoundTexpr"
  | toBox => "ToBox"
  | toLinear => "ToLinconsArray"
  | toTerms => "ToTconsArray"
  | meet => "Meet"
  | meetAll => "MeetArray"
  | meetLinear => "MeetLinconsArray"
  | meetTerms => "MeetTconsArray"
  | join => "Join"
  | joinAll => "JoinArray"
  | assignForms => "AssignLinexprArray"
  | substituteForms => "SubstituteLinexprArray"
  | assignTerms => "AssignTexprArray"
  | substituteTerms => "SubstituteTexprArray"
  | forget => "ForgetArray"
  | widening => "Widening"
  | changeEnvironment => "ChangeEnvironment"
  | rename => "RenameArray"

def OperationId.all : List OperationId :=
  [unknown, top, bottom, ofBox, isBottom, isTop, isLeq, isEq, isFree, satInterval, satLinear,
    satTerm, boundDimension, boundForm, boundTerm, toBox, toLinear, toTerms, meet, meetAll,
    meetLinear, meetTerms, join, joinAll, assignForms, substituteForms, assignTerms,
    substituteTerms, forget, widening, changeEnvironment, rename]

inductive Condition
  | none
  | timeout
  | outOfSpace
  | overflow
  | invalidArgument
  | notImplemented
  deriving DecidableEq

def Condition.label : Condition → String
  | none => "None"
  | timeout => "Timeout"
  | outOfSpace => "OutOfSpace"
  | overflow => "Overflow"
  | invalidArgument => "InvalidArgument"
  | notImplemented => "NotImplemented"

def Condition.all : List Condition :=
  [none, timeout, outOfSpace, overflow, invalidArgument, notImplemented]

structure OperationOptions where
  algorithm : Int
  timeout : Nat
  maxObjectSize : Nat
  exactWanted : Bool
  bestWanted : Bool
  deriving DecidableEq

def OperationOptions.standard : OperationOptions := ⟨0, 0, 0, false, false⟩

structure Incident where
  condition : Condition
  operation : OperationId
  note : String
  deriving DecidableEq

end Enclosure
