import ObjectAbi.ClassTable.Lineage

/-!
# Objects in memory

Every object starts with its dispatch vector, so that a call finds the procedure without knowing the
object's class. A word for synchronisation and the fields follow; an array ends with its elements.

A class has one list of the fields that each object holds and one of those that are held once. Both
start with the list of the class above and go on with the class's own fields in the order of
declaration, so an inherited field keeps its position in every subclass.
-/

namespace ObjectAbi

/-! ## Parts of an object -/

/-- The parts of an object, in the order in which they lie in memory. -/
inductive ObjectPart
  | dispatchVector
  | synchronization
  | fields
  /-- Only arrays have this part. -/
  | elements
deriving DecidableEq, Repr

namespace ObjectPart

def all : List ObjectPart := [dispatchVector, synchronization, fields, elements]

def index : ObjectPart → Nat
  | dispatchVector => 0
  | synchronization => 1
  | fields => 2
  | elements => 3

end ObjectPart

/-! ## Field lists -/

/-- The fields of one kind that the class itself declares. -/
def ClassView.fieldsOf (v : ClassView) (kind : FieldKind) : List FieldEntry :=
  v.fields.filter fun f => f.decl.kind = kind

/-- The fields of one kind, inherited ones first. -/
def Lineage.fields (kind : FieldKind) : Lineage → Except Fault (List FieldEntry)
  | root v => .ok (v.fieldsOf kind)
  | heir v above => do return (← above.fields kind) ++ v.fieldsOf kind
  | broken _ fault => .error fault

def ClassTable.fieldsOf (t : ClassTable) (kind : FieldKind) (c : ClassId) :
    Except Fault (List FieldEntry) :=
  (t.lineage c).fields kind

/-! ## Positions

Fields and slots are numbered by 32-bit positions. The numbers of a table's members fit, so in
practice a position is absent only because the thing looked for is.
-/

namespace Layout

/-- The position of the first element that passes a test, if a 32-bit number can hold it. -/
def position32? (p : α → Bool) (xs : List α) : Option UInt32 :=
  match xs.findIdx? p with
  | some i => if i < Ident.capacity then some (.ofNat i) else none
  | none => none

def fieldIndex? (fields : List FieldEntry) (f : FieldId) : Option UInt32 :=
  position32? (fun entry => entry.id = f) fields

end Layout

end ObjectAbi
