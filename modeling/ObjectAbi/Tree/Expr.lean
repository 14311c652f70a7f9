import ObjectAbi.Tree.Literal
import ObjectAbi.Tree.Operator
import ObjectAbi.Ty

/-!
# Resolved syntax trees

Procedure bodies after name resolution and type checking: every name is an identifier, and every
expression carries its static type. Where the type follows from the operands there is a function
that builds the expression and derives it.
-/

namespace ObjectAbi.Tree

/-- The object that a procedure works on, seen as its class or as the class above. -/
inductive Receiver
  | this
  | super
deriving DecidableEq, Repr

mutual

inductive Expr
  | mk (node : Node) (ty : Ty)

/-- An expression without its type. -/
inductive Node
  | literal (value : Literal)
  | localVariable (v : LocalId)
  | field (receiver : Expr) (f : FieldId)
  | staticField (f : FieldId)
  | arrayElement (array index : Expr)
  | arrayLength (array : Expr)
  | binary (op : BinaryOperator) (lhs rhs : Expr)
  | unary (op : UnaryOperator) (operand : Expr)
  | step (op : StepOperator) (place : Place)
  | assign (place : Place) (value : Expr)
  /-- Converts to the expression's own type. -/
  | cast (value : Expr)
  | conditional (condition consequent alternative : Expr)
  /-- The receiver, or that of an enclosing class. -/
  | receiver (which : Receiver) (qualifier : Option ClassId)
  /-- A new object of the expression's own type. -/
  | new (constructor : MethodId) (args : List Expr)
  /-- A new array of the expression's own type. -/
  | newArray (length : Expr)
  /-- A call. A static method has no receiver, and that of the caller is left out. -/
  | call (m : MethodId) (receiver : Option Expr) (args : List Expr)

inductive Place
  | localVariable (v : LocalId)
  | field (receiver : Expr) (f : FieldId)
  | staticField (f : FieldId)
  | arrayElement (array index : Expr)

end

namespace Expr

def node : Expr → Node
  | mk node _ => node

def ty : Expr → Ty
  | mk _ ty => ty

def bool (value : Bool) : Expr := mk (.literal (.bool value)) .boolean

def int (value : Int32) : Expr := mk (.literal (.int value)) .int

def long (value : Int64) : Expr := mk (.literal (.long value)) .long

def double (value : Float64Bits) : Expr := mk (.literal (.double value)) .double

def null : Expr := mk (.literal .null) .null

/-- A unary operation has the type of its operand. -/
def unary (op : UnaryOperator) (operand : Expr) : Expr := mk (.unary op operand) operand.ty

/-- An assignment has the type of the value. -/
def assign (place : Place) (value : Expr) : Expr := mk (.assign place value) value.ty

/-- A conditional has the type of the consequent. -/
def conditional (condition consequent alternative : Expr) : Expr :=
  mk (.conditional condition consequent alternative) consequent.ty

/-- The receiver of the procedure itself. -/
def ownReceiver (which : Receiver) (ty : Ty) : Expr := mk (.receiver which none) ty

end Expr

inductive Stmt
  | declareLocal (v : LocalId) (name : String) (ty : Ty) (init : Option Expr)
  | return (value : Option Expr)
  | branch (condition : Expr) (consequent : Stmt) (alternative : Option Stmt)
  | loop (condition : Expr) (body : Stmt)
  | expr (e : Expr)
  | block (stmts : List Stmt)

end ObjectAbi.Tree
