import ObjectAbi.ClassTable.Declaration
import ObjectAbi.Emission.InternalError

/-!
# Log

The events that a run leaves behind, in the order in which they happen.
-/

namespace ObjectAbi

inductive Level
  | trace
  | error
deriving DecidableEq, Repr

inductive Event
  /-- A class of the name is about to be declared. -/
  | classDeclared (name : String)
  /-- The field list of a class was put together, with so many fields in all. -/
  | fieldsListed (c : ClassId) (name : String) (kind : FieldKind) (count : Nat)
  | internalError (error : InternalError)
deriving DecidableEq, Repr

namespace Event

def level : Event → Level
  | classDeclared _ | fieldsListed .. => .trace
  | internalError _ => .error

def message : Event → String
  | classDeclared _ => "declare class"
  | fieldsListed .. => "flattened field list"
  | internalError _ => "internal compiler error"

end Event

/-- Whether log lines are written at all: only when the environment names what to write. -/
def logInstalled (filter : Option String) : Bool := filter.isSome

end ObjectAbi
