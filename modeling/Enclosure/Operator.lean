/-!
# Operators

The operators of terms, with one or two operands.
-/

namespace Enclosure

inductive UnaryOperator
  | neg
  | cast
  | sqrt
  deriving DecidableEq

inductive BinaryOperator
  | add
  | sub
  | mul
  | div
  | mod
  | pow
  deriving DecidableEq

def UnaryOperator.symbol : UnaryOperator → String
  | neg => "-"
  | cast => "cast"
  | sqrt => "sqrt"

def BinaryOperator.symbol : BinaryOperator → String
  | add => "+"
  | sub => "-"
  | mul => "·"
  | div => "/"
  | mod => "%"
  | pow => "^"

def UnaryOperator.label : UnaryOperator → String
  | neg => "Neg"
  | cast => "Cast"
  | sqrt => "Sqrt"

def BinaryOperator.label : BinaryOperator → String
  | add => "Add"
  | sub => "Sub"
  | mul => "Mul"
  | div => "Div"
  | mod => "Mod"
  | pow => "Pow"

def UnaryOperator.precedence : UnaryOperator → Nat
  | neg => 4
  | cast => 5
  | sqrt => 5

def BinaryOperator.precedence : BinaryOperator → Nat
  | add => 1
  | sub => 1
  | mul => 2
  | div => 2
  | mod => 2
  | pow => 3

inductive Operator
  | unary (op : UnaryOperator)
  | binary (op : BinaryOperator)
  deriving DecidableEq

def Operator.label : Operator → String
  | unary op => op.label
  | binary op => op.label

def BinaryOperator.all : List BinaryOperator := [add, sub, mul, div, mod, pow]

def UnaryOperator.all : List UnaryOperator := [neg, cast, sqrt]

def Operator.all : List Operator :=
  BinaryOperator.all.map .binary ++ UnaryOperator.all.map .unary

end Enclosure
