import ObjectAbi.ClassTable.TypeText
import ObjectAbi.Emission.InternalError
import ObjectAbi.Layout.DispatchVector
import ObjectAbi.Symbol

/-!
# Layout queries

What the code generator asks about the layout of objects, and the answer to each question on its
own. An answer can be an internal error: the generator asked for something that is not there.
-/

namespace ObjectAbi.Layout

inductive Query
  | fields (kind : FieldKind) (c : ClassId)
  | fieldIndex (c : ClassId) (f : FieldId)
  | slots (c : ClassId)
  | slotIndex (c : ClassId) (m : MethodId)
  /-- The class of a type at run time; the context says what the layout was needed for. -/
  | erasedClass (ty : Ty) (context : String)
  | structName (c : ClassId)
deriving DecidableEq, Repr

inductive Answer
  | fields (fields : List FieldEntry)
  | fieldIndex (index : UInt32)
  | slots (slots : List Slot)
  | slotIndex (index : Option UInt32)
  | erasedClass (c : ClassId)
  | structName (name : String)
  | internalError (error : InternalError)
deriving DecidableEq, Repr

def fieldIndexIn (t : ClassTable) (fields : List FieldEntry) (c : ClassId) (f : FieldId) :
    Except Fault Answer := do
  match fieldIndex? fields f with
  | some i => return .fieldIndex i
  | none =>
    let field ← t.fieldDecl f
    let container ← t.classDecl c
    return .internalError (.fieldNotFound field.name container.name)

/-- The class of a type at run time. A type that has none is reported with its text. -/
def erasedClass (t : ClassTable) (ty : Ty) (context : String) : Except Fault Answer := do
  match ty.erasedClass? with
  | some c => return .erasedClass c
  | none => return .internalError (.unhandledReferenceType (← t.display ty) context)

def structName (t : ClassTable) (c : ClassId) : Except Fault Answer := do
  return .structName (Symbol.classStruct (← t.classDecl c).name)

/-- The answer to a query, worked out from the table alone. -/
def Query.answer (t : ClassTable) : Query → Except Fault Answer
  | fields kind c => do return .fields (← t.fieldsOf kind c)
  | fieldIndex c f => do fieldIndexIn t (← t.fieldsOf .perObject c) c f
  | slots c => do return .slots (← t.slots c)
  | slotIndex c m => do return .slotIndex (slotIndex? (← t.slots c) m)
  | erasedClass ty context => Layout.erasedClass t ty context
  | structName c => Layout.structName t c

end ObjectAbi.Layout
