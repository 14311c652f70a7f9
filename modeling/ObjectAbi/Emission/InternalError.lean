import ObjectAbi.Emission.BuildError

/-!
# Internal errors

The parts of a compiler disagree about the program: something that resolution and type checking
promised does not hold. Each such error ends the compilation of the whole unit.
-/

namespace ObjectAbi

inductive InternalError
  /-- The field is not in the field list of the class. -/
  | fieldNotFound (field className : String)
  /-- A type without a run-time class stands where an object's layout is needed. -/
  | unhandledReferenceType (ty context : String)
  | qualifiedSelfReference (qualifier : String)
  | missingReceiver (keyword procedure : String)
  | unboundLocal (number : UInt32) (procedure : String)
  | unsupportedArrayElement (element : String)
  | missingProcedure (className procedure : String)
  | duplicateDefinition (procedure : String)
  | voidValue (procedure : String)
  | noEnclosingProcedure (what : String)
  /-- The emitted code of a module was rejected, with the verifier's message. -/
  | verification (moduleName text : String)
  | build (error : BuildError)
deriving DecidableEq, Repr

namespace InternalError

/-- The text of an error. An error of code building speaks for itself. -/
def message : InternalError → String
  | fieldNotFound field className =>
    s!"field `{field}` not found in the field list of `{className}`"
  | unhandledReferenceType ty context => s!"unhandled reference type `{ty}` {context}"
  | qualifiedSelfReference qualifier => s!"qualified `{qualifier}.this` is not supported"
  | missingReceiver keyword procedure => s!"`{keyword}` used without a receiver in `{procedure}`"
  | unboundLocal number procedure => s!"local #{number} is not bound in `{procedure}`"
  | unsupportedArrayElement element =>
    s!"array element type `{element}` is a type parameter; its tail layout is unknown"
  | missingProcedure className procedure =>
    s!"class `{className}` does not declare procedure `{procedure}`"
  | duplicateDefinition procedure => s!"procedure `{procedure}` is defined more than once"
  | voidValue procedure => s!"expression of type `void` used as a value in `{procedure}`"
  | noEnclosingProcedure what => s!"`{what}` used outside of a procedure body"
  | verification moduleName text =>
    s!"emitted IR failed verification: invalid module `{moduleName}`: {text}"
  | build error => error.message

/-- The error of another layer that this one was caused by. An error of code building is shown in
this one's place, not as its cause, so there is none. -/
def cause? (_ : InternalError) : Option String := none

/-- The error of code building inside this one. -/
def buildError? : InternalError → Option BuildError
  | build error => some error
  | _ => none

end InternalError

end ObjectAbi
