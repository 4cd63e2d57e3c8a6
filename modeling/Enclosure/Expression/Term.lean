import Enclosure.Expression.Affine

/-!
# Terms

A term is built from constants and dimensions by operators.
-/

namespace Enclosure

inductive Term
  | const (c : Coefficient)
  | dim (d : Nat)
  | unary (op : UnaryOperator) (format : ResultFormat) (policy : RoundingPolicy) (arg : Term)
  | binary (op : BinaryOperator) (format : ResultFormat) (policy : RoundingPolicy)
    (lhs rhs : Term)
  deriving DecidableEq

def UnaryOperator.apply : UnaryOperator → Interval → Interval
  | neg, i => i.neg
  | sqrt, i => i.sqrt
  | cast, i => i

def BinaryOperator.apply : BinaryOperator → Interval → Interval → Interval
  | add, i, j => i.add j
  | sub, i, j => i.sub j
  | mul, i, j => i.mul j
  | div, i, j => i.div j
  | mod, i, j => i.modulo j
  | pow, i, j => i.pow j

namespace Term

def makeUnary (op : Operator) (format : ResultFormat) (policy : RoundingPolicy) (arg : Term) :
    Except Failure Term :=
  match op with
  | .unary op => .ok (.unary op format policy arg)
  | .binary op => .error (.missingOperand op)

def makeBinary (op : Operator) (format : ResultFormat) (policy : RoundingPolicy)
    (lhs rhs : Term) : Except Failure Term :=
  match op with
  | .binary op => .ok (.binary op format policy lhs rhs)
  | .unary op => .error (.extraOperand op)

def add (s t : Term) : Term := .binary .add .real .nearest s t

def mul (s t : Term) : Term := .binary .mul .real .nearest s t

/-- The term of a linear form: the constant, to which the products are added one by one. -/
def ofLinearForm (f : LinearForm) : Term :=
  f.entries.foldl (fun t (d, c) => t.add (.mul (.const c) (.dim d))) (.const f.constant)

def hasDim (d : Nat) : Term → Bool
  | const _ => false
  | dim e => e = d
  | unary _ _ _ t => t.hasDim d
  | binary _ _ _ s t => s.hasDim d || t.hasDim d

def depth : Term → Nat
  | const _ => 0
  | dim _ => 0
  | unary _ _ _ t => 1 + t.depth
  | binary _ _ _ s t => 1 + Nat.max s.depth t.depth

def size : Term → Nat
  | const _ => 0
  | dim _ => 0
  | unary _ _ _ t => 1 + t.size
  | binary _ _ _ s t => 1 + s.size + t.size

def support : Term → Nat
  | const _ => 0
  | dim d => d + 1
  | unary _ _ _ t => t.support
  | binary _ _ _ s t => Nat.max s.support t.support

def isRange : Term → Bool
  | const (.range i) => !i.isPoint
  | _ => false

def isExact : Term → Bool
  | const c => c.isExact
  | dim _ => true
  | unary _ _ _ t => t.isExact
  | binary _ _ _ s t => s.isExact && t.isExact

def substitute (d : Nat) (replacement : Term) : Term → Term
  | const c => const c
  | dim e => if e = d then replacement else dim e
  | unary op f p t => unary op f p (substitute d replacement t)
  | binary op f p s t => binary op f p (substitute d replacement s) (substitute d replacement t)

def mapDims (g : Nat → Nat) : Term → Term
  | const c => const c
  | dim d => dim (g d)
  | unary op f p t => unary op f p (t.mapDims g)
  | binary op f p s t => binary op f p (s.mapDims g) (t.mapDims g)

def addDimensions (t : Term) (c : SpaceChange) : Term := t.mapDims c.shift

def permute (t : Term) (p : Permutation) : Except Failure Term :=
  if t.support ≤ p.size then .ok (t.mapDims p.image) else .error .outOfRange

/-- An interval, in kind `k`, that holds all values of the term when each dimension is
within its bound. -/
def eval (bounds : List Interval) (k : Kind) : Term → Except Failure Interval
  | const c => c.checkedIntervalOf k
  | dim d => boundAt bounds k d
  | unary op f p t => do
    let i ← t.eval bounds k
    return (op.apply i).round f p
  | binary op f p s t => do
    let i ← s.eval bounds k
    let j ← t.eval bounds k
    return (op.apply i j).round f p

def affineProduct (bounds : List Interval) (k : Kind) (a b : Affine) : Except Failure Affine :=
  if a.isConstant then .ok (b.scale a.constant)
  else if b.isConstant then .ok (a.scale b.constant)
  else do return a.scale (← b.eval bounds k)

/-- An affine form that includes all values of the term when each dimension is within its bound. -/
def affine (bounds : List Interval) (k : Kind) : Term → Except Failure Affine
  | const c => .ofInterval <$> c.checkedIntervalOf k
  | dim d => do
    k.require
    return .ofDimension k d
  | unary .neg .real _ t => (·.neg) <$> t.affine bounds k
  | unary .cast .real _ t => t.affine bounds k
  | binary .add .real _ s t => do
    let a ← s.affine bounds k
    let b ← t.affine bounds k
    return a.add b
  | binary .sub .real _ s t => do
    let a ← s.affine bounds k
    let b ← t.affine bounds k
    return a.sub b
  | binary .mul .real _ s t => do
    let a ← s.affine bounds k
    let b ← t.affine bounds k
    affineProduct bounds k a b
  | binary .div .real p s t => do
    let divisor ← t.eval bounds k
    if divisor.isEmpty || divisor.containsZero then
      .ofInterval <$> eval bounds k (binary .div .real p s t)
    else
      let a ← s.affine bounds k
      return a.scale ((Interval.point (.one k)).div divisor)
  | t => .ofInterval <$> t.eval bounds k

/-- A linear form, with numbers as coefficients, that includes all values of the term when
each dimension is within its bound. -/
def linearize (t : Term) (bounds : List Interval) (k : Kind) : Except Failure LinearForm := do
  (← t.affine bounds k).toLinearForm.quasilinearize bounds k

def combine? (op : BinaryOperator) (a b : Affine) : Option Affine :=
  match op with
  | .add => some (a.add b)
  | .sub => some (a.sub b)
  | .mul =>
    if a.isConstant then some (b.scale a.constant)
    else if b.isConstant then some (a.scale b.constant)
    else none
  | .div =>
    if b.isConstant && !b.constant.containsZero then
      some (a.scale ((Interval.point (.one b.constant.kind)).div b.constant))
    else none
  | _ => none

/-- The affine form of a term built from exact sums, differences, negations, casts, and
products and quotients by constants. -/
def exactAffine? : Term → Option Affine
  | const c => some (.ofInterval c.toInterval)
  | dim d => some (.ofDimension .rational d)
  | unary .neg .real _ t => (·.neg) <$> t.exactAffine?
  | unary .cast .real _ t => t.exactAffine?
  | unary _ _ _ _ => none
  | binary op .real _ s t => do
    let a ← s.exactAffine?
    let b ← t.exactAffine?
    let (a, b) := a.unify b
    combine? op a b
  | binary _ _ _ _ _ => none

def toLinear? (t : Term) : Option LinearForm := (·.toLinearForm) <$> t.exactAffine?

def precedence : Term → Nat
  | const _ => UnaryOperator.neg.precedence
  | dim _ => UnaryOperator.neg.precedence
  | unary op _ _ _ => op.precedence
  | binary op _ _ _ _ => op.precedence

def bracket (wanted : Bool) (s : String) : String := if wanted then "(" ++ s ++ ")" else s

/-- The text with brackets around an operand that binds less tightly, and around a right
operand that binds as tightly. -/
def render (name : Nat → String) : Term → String
  | const c => c.text
  | dim d => name d
  | unary op _ _ t => op.symbol ++ " " ++ bracket (t.precedence < op.precedence) (t.render name)
  | binary op _ _ s t =>
    bracket (s.precedence < op.precedence) (s.render name) ++ " " ++ op.symbol ++ " " ++
      bracket (t.precedence ≤ op.precedence) (t.render name)

def textWith (name : Nat → String) (t : Term) : String :=
  String.ofList (mergeSigns (t.render name).toList)

end Term

end Enclosure
