/-!
# Instructions

The arithmetic and the conversions of emitted code.
-/

namespace ObjectAbi

inductive Arithmetic
  | add
  | sub
  | mul
  | signedDiv
  | signedRem
  | and
  | or
  | xor
  | floatAdd
  | floatSub
  | floatMul
  | floatDiv
  | floatRem
deriving DecidableEq, Repr

namespace Arithmetic

def all : List Arithmetic :=
  [add, sub, mul, signedDiv, signedRem, and, or, xor,
    floatAdd, floatSub, floatMul, floatDiv, floatRem]

def isFloating : Arithmetic → Bool
  | floatAdd | floatSub | floatMul | floatDiv | floatRem => true
  | _ => false

end Arithmetic

inductive Conversion
  | signExtend
  | zeroExtend
  | truncate
  | signedToFloat
  | floatToSigned
  | floatExtend
  | floatTruncate
deriving DecidableEq, Repr

namespace Conversion

def all : List Conversion :=
  [signExtend, zeroExtend, truncate, signedToFloat, floatToSigned, floatExtend, floatTruncate]

/-- The instruction's word in emitted code. -/
def mnemonic : Conversion → String
  | signExtend => "sext"
  | zeroExtend => "zext"
  | truncate => "trunc"
  | signedToFloat => "sitofp"
  | floatToSigned => "fptosi"
  | floatExtend => "fpext"
  | floatTruncate => "fptrunc"

end Conversion

end ObjectAbi
