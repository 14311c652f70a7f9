import ObjectAbi.ClassTable.Declaration

/-!
# Class tables

A class table holds every class, field and procedure of a program, and for each name the class that
was last declared under it.
-/

namespace ObjectAbi

structure ClassTable where
  classes : Arena .classDecl ClassDecl
  fields : Arena .fieldDecl FieldDecl
  methods : Arena .methodDecl MethodDecl
  names : Std.TreeMap String ClassId

/-- A class with its own members looked up. -/
structure ClassView where
  id : ClassId
  decl : ClassDecl
  fields : List FieldEntry
  methods : List MethodEntry
deriving DecidableEq, Repr

/-! ## The table of a program without declarations -/

namespace Builtin

def objectDecl : ClassDecl where
  name := objectName
  modifiers := .ofList [.publicAccess]
  superclass := none

def stringDecl : ClassDecl where
  name := stringName
  modifiers := .ofList [.publicAccess, .final]
  superclass := some (.ofClass object)

def arrayDecl : ClassDecl where
  name := arrayName
  modifiers := .ofList [.publicAccess, .final]
  superclass := some (.ofClass object)
  fields := [arrayLength]

def arrayLengthDecl : FieldDecl where
  name := arrayLengthName
  container := array
  ty := .int
  modifiers := .ofList [.publicAccess, .final]

def table : ClassTable where
  classes := { items := #[objectDecl, stringDecl, arrayDecl] }
  fields := { items := #[arrayLengthDecl] }
  methods := { items := #[] }
  names := .ofList [(objectName, object), (stringName, string), (arrayName, array)]

end Builtin

namespace ClassTable

/-! ## Looking up -/

/-- No class is declared, not even a built-in one. -/
def isEmpty (t : ClassTable) : Bool := t.classes.size = 0

def classDecl (t : ClassTable) (c : ClassId) : Except Fault ClassDecl := t.classes.get c

def fieldDecl (t : ClassTable) (f : FieldId) : Except Fault FieldDecl := t.fields.get f

def methodDecl (t : ClassTable) (m : MethodId) : Except Fault MethodDecl := t.methods.get m

/-- The class that was last declared under a name. -/
def classNamed? (t : ClassTable) (name : String) : Option ClassId := t.names[name]?

def roster (t : ClassTable) : List ClassEntry := t.classes.entries

def superclass (t : ClassTable) (c : ClassId) : Except Fault (Option ClassId) := do
  return (← t.classDecl c).superclass?

/-- A class with its own members looked up. -/
def view (t : ClassTable) (c : ClassId) : Except Fault ClassView := do
  let decl ← t.classDecl c
  return {
    id := c
    decl := decl
    fields := ← decl.fields.mapM t.fields.entry
    methods := ← decl.methods.mapM t.methods.entry }

/-- A field as every instance of its class sees it. -/
structure ErasedField where
  id : FieldId
  container : ClassId
  ty : Ty
deriving DecidableEq, Repr

/-- The field with the type that it has at run time. -/
def erasedField (t : ClassTable) (f : FieldId) : Except Fault ErasedField := do
  let decl ← t.fieldDecl f
  return ⟨f, decl.container, decl.ty.erase⟩

end ClassTable

namespace ClassView

/-- The first field of the class itself that has the name. -/
def field? (v : ClassView) (name : String) : Option FieldId :=
  (v.fields.find? fun f => f.decl.name = name).map (·.id)

/-- The first procedure of the class itself that has the name and the number of formals. -/
def method? (v : ClassView) (name : String) (arity : Nat) : Option MethodId :=
  (v.methods.find? fun m => m.decl.name = name && m.decl.formals.length = arity).map (·.id)

end ClassView

end ObjectAbi
