/-!
# Errors of code building

What goes wrong when the code generator asks the instruction builder for something impossible. Each
error is a mistake of the generator, never of the program that is compiled.
-/

namespace ObjectAbi

inductive BuilderFault
  | unsetPosition
  | extractOutOfRange
  | bitWidth
  | pointeeMismatch
  | operandMismatch
  | neitherPointerNorInteger
  | elementPointee
  | elementIndex
deriving DecidableEq, Repr

def BuilderFault.message : BuilderFault → String
  | .unsetPosition => "Builder position is not set"
  | .extractOutOfRange => "Aggregate extract index out of range"
  | .bitWidth => "The bitwidth of value must be a power of 2 and greater than or equal to 8."
  | .pointeeMismatch => "Pointee type does not match the value's type"
  | .operandMismatch => "Values must have the same type"
  | .neitherPointerNorInteger => "Values must have pointer or integer type"
  | .elementPointee => "GEP pointee is not a struct"
  | .elementIndex => "GEP index out of range"

/-- A request that cannot be built. Types and names are carried as text. -/
inductive BuildError
  | noInsertPoint
  | blockTerminated (function block : String)
  | notAPointer (found : String)
  | typeMismatch (expected found : String)
  | invalidIndex (ty : String) (index : UInt64)
  | notAggregate (ty : String)
  | dynamicStructIndex (ty : String)
  | opaqueStruct (name : String)
  | structRefilled (name : String)
  | unsized (ty : String)
  | signatureMismatch (name existing requested : String)
  | arityMismatch (name : String) (expected found : UInt64)
  | notAFunction (ty : String)
  | builder (text : String)
deriving DecidableEq, Repr

namespace BuildError

/-- A complaint of the underlying builder is passed on as its text. -/
def ofBuilderFault (f : BuilderFault) : BuildError := .builder f.message

def message : BuildError → String
  | noInsertPoint => "builder has no insertion point"
  | blockTerminated function block => s!"block `{block}` in `{function}` is already terminated"
  | notAPointer found => s!"expected a pointer, found `{found}`"
  | typeMismatch expected found => s!"type mismatch: expected `{expected}`, found `{found}`"
  | invalidIndex ty index => s!"index {index} is out of range for `{ty}`"
  | notAggregate ty => s!"cannot index into non-aggregate type `{ty}`"
  | dynamicStructIndex ty => s!"dynamic index into struct `{ty}`"
  | opaqueStruct name => s!"struct `{name}` is opaque; its layout is unknown"
  | structRefilled name => s!"struct `{name}` already has a body"
  | unsized ty => s!"type `{ty}` has no size"
  | signatureMismatch name existing requested =>
    s!"`{name}` is already declared with type `{existing}`, requested `{requested}`"
  | arityMismatch name expected found => s!"`{name}` expects {expected} arguments, got {found}"
  | notAFunction ty => s!"type `{ty}` is not a function type"
  | builder text => s!"LLVM builder: {text}"

end BuildError

end ObjectAbi
