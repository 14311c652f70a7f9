import ObjectAbi.ClassTable.Basic

/-!
# Symbols

The names under which classes, dispatch vectors, procedures and static fields appear in emitted
code. A name inside a symbol is written after its length, so that the symbol shows where it ends:

* struct of a class: `class.<name>`
* struct of its dispatch vector: `dv.<name>`
* its dispatch vector: `_V<length><name>`
* procedure: `_J<length><class><length><name>_<codes of the formals>`
* static field: `_S<length><class><length><name>`

Lengths count the bytes of a name in UTF-8.
-/

namespace ObjectAbi.Symbol

def sized (name : String) : List Char := Nat.toDigits 10 name.utf8ByteSize ++ name.toList

/-! ## Types -/

def primitiveCode : Primitive → Char
  | .boolean => 'Z'
  | .byte => 'B'
  | .short => 'S'
  | .char => 'C'
  | .int => 'I'
  | .long => 'J'
  | .float => 'F'
  | .double => 'D'

/-- The code of a class: `L` and its name. -/
def classCode (t : ClassTable) (c : ClassId) : Except Fault (List Char) := do
  return 'L' :: sized (← t.classDecl c).name

/-- The code of a type. A type parameter has the code of the class it erases to; the root class
stands for the null type and for a parameter that erases to no class. -/
def typeCode (t : ClassTable) : Ty → Except Fault (List Char)
  | .void => .ok ['V']
  | .null => classCode t Builtin.object
  | .primitive p => .ok [primitiveCode p]
  | .classType c _ => classCode t c
  | .parameter name bound =>
    classCode t ((Ty.parameter name bound).erasedClass?.getD Builtin.object)
  | .array element => do return 'A' :: (← typeCode t element)

/-! ## Classes -/

def classStruct (className : String) : String := "class." ++ className

def dispatchVectorStruct (className : String) : String := "dv." ++ className

def dispatchVector (className : String) : String := .ofList ('_' :: 'V' :: sized className)

/-! ## Members -/

/-- The name that a procedure has in its symbol. -/
def emittedName (m : MethodDecl) : String :=
  match m.kind with
  | .method => m.name
  | .constructor => "$init"

@[simp] theorem emittedName_of_method {m : MethodDecl} (h : m.kind = .method) :
    emittedName m = m.name := by
  rw [emittedName, h]

@[simp] theorem emittedName_of_constructor {m : MethodDecl} (h : m.kind = .constructor) :
    emittedName m = "$init" := by
  rw [emittedName, h]

/-- The symbol of a procedure, from the names and the codes of the formals. -/
def procedureText (className name : String) (codes : List (List Char)) : String :=
  .ofList ('_' :: 'J' :: (sized className ++ sized name ++ '_' :: codes.flatten))

/-- The symbol of a static field, from the names. -/
def staticFieldText (className name : String) : String :=
  .ofList ('_' :: 'S' :: (sized className ++ sized name))

def procedure (t : ClassTable) (m : MethodDecl) : Except Fault String := do
  let container ← t.classDecl m.container
  return procedureText container.name (emittedName m) (← m.formals.mapM (typeCode t))

def staticField (t : ClassTable) (f : FieldDecl) : Except Fault String := do
  return staticFieldText (← t.classDecl f.container).name f.name

end ObjectAbi.Symbol
