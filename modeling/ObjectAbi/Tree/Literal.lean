/-!
# Literals

Constants in source text. Floating-point numbers are kept as the bits of their binary format, so
that no constant changes on its way through the compiler, and are compared as numbers.
-/

namespace ObjectAbi.Tree

/-- A number in the 32-bit binary format: a sign, eight bits of exponent, 23 of fraction. -/
structure Float32Bits where
  bits : UInt32
deriving DecidableEq, Repr

namespace Float32Bits

def magnitude (x : Float32Bits) : UInt32 := x.bits &&& 0x7fffffff

/-- The exponent is all ones and the fraction is not zero. -/
def isNaN (x : Float32Bits) : Bool := x.magnitude > 0x7f800000

/-- The two are one number: the two zeros are, and what is not a number is equal to nothing. -/
def equal (x y : Float32Bits) : Bool :=
  !x.isNaN && !y.isNaN && (x.bits = y.bits || (x.magnitude = 0 && y.magnitude = 0))

end Float32Bits

/-- A number in the 64-bit binary format: a sign, eleven bits of exponent, 52 of fraction. -/
structure Float64Bits where
  bits : UInt64
deriving DecidableEq, Repr

namespace Float64Bits

def magnitude (x : Float64Bits) : UInt64 := x.bits &&& 0x7fffffffffffffff

/-- The exponent is all ones and the fraction is not zero. -/
def isNaN (x : Float64Bits) : Bool := x.magnitude > 0x7ff0000000000000

/-- The two are one number: the two zeros are, and what is not a number is equal to nothing. -/
def equal (x y : Float64Bits) : Bool :=
  !x.isNaN && !y.isNaN && (x.bits = y.bits || (x.magnitude = 0 && y.magnitude = 0))

end Float64Bits

inductive Literal
  | bool (value : Bool)
  | int (value : Int32)
  | long (value : Int64)
  | float (value : Float32Bits)
  | double (value : Float64Bits)
  | char (unit : UInt16)
  | null
deriving DecidableEq, Repr

def Literal.equal : Literal → Literal → Bool
  | .bool a, .bool b => a = b
  | .int a, .int b => a = b
  | .long a, .long b => a = b
  | .float a, .float b => a.equal b
  | .double a, .double b => a.equal b
  | .char a, .char b => a = b
  | .null, .null => true
  | _, _ => false

end ObjectAbi.Tree
