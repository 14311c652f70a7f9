/-!
# Operators of source text
-/

namespace ObjectAbi.Tree

inductive BinaryOperator
  | add
  | sub
  | mul
  | div
  | rem
  | bitAnd
  | bitOr
  | bitXor
  | eq
  | ne
  | lt
  | le
  | gt
  | ge
  | and
  | or
deriving DecidableEq, Repr

namespace BinaryOperator

def all : List BinaryOperator :=
  [add, sub, mul, div, rem, bitAnd, bitOr, bitXor, eq, ne, lt, le, gt, ge, and, or]

def isComparison : BinaryOperator → Bool
  | eq | ne | lt | le | gt | ge => true
  | _ => false

/-- The right operand is evaluated only if the left one leaves the result open. -/
def isShortCircuit : BinaryOperator → Bool
  | and | or => true
  | _ => false

end BinaryOperator

inductive UnaryOperator
  | neg
  | plus
  | bitNot
  | not
deriving DecidableEq, Repr

def UnaryOperator.all : List UnaryOperator := [.neg, .plus, .bitNot, .not]

/-- Adding one to a place, or taking one away from it. -/
inductive StepOperator
  | preIncrement
  | preDecrement
  | postIncrement
  | postDecrement
deriving DecidableEq, Repr

namespace StepOperator

def all : List StepOperator := [preIncrement, preDecrement, postIncrement, postDecrement]

def isIncrement : StepOperator → Bool
  | preIncrement | postIncrement => true
  | preDecrement | postDecrement => false

/-- The operator stands before the place, so its value is the new one. -/
def standsBefore : StepOperator → Bool
  | preIncrement | preDecrement => true
  | postIncrement | postDecrement => false

end StepOperator

end ObjectAbi.Tree
