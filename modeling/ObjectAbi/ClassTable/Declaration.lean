import ObjectAbi.Arena
import ObjectAbi.Modifiers
import ObjectAbi.Ty.Erasure

/-!
# Declarations

What is known of a class, a field and a procedure once all names in a program are resolved.
-/

namespace ObjectAbi

/-- A class. Its own members are listed in the order of declaration. -/
structure ClassDecl where
  name : String
  modifiers : Modifiers
  /-- The type that the class extends; only the root has none. -/
  superclass : Option Ty
  typeParams : List String := []
  fields : List FieldId := []
  methods : List MethodId := []
deriving DecidableEq, Repr

/-- The class that a class inherits from: the erasure of the type it extends. -/
def ClassDecl.superclass? (d : ClassDecl) : Option ClassId :=
  d.superclass.bind Ty.erasedClass?

/-- A field belongs to each object, or once to its class. -/
inductive FieldKind
  | perObject
  | perClass
deriving DecidableEq, Repr

structure FieldDecl where
  name : String
  container : ClassId
  ty : Ty
  modifiers : Modifiers
deriving DecidableEq, Repr

namespace FieldDecl

def isStatic (f : FieldDecl) : Bool := f.modifiers.isStatic

def kind (f : FieldDecl) : FieldKind := if f.isStatic then .perClass else .perObject

end FieldDecl

inductive ProcedureKind
  | method
  | constructor
deriving DecidableEq, Repr

/-- A method or a constructor. The receiver is no formal. -/
structure MethodDecl where
  name : String
  container : ClassId
  modifiers : Modifiers
  kind : ProcedureKind
  formals : List Ty
  result : Ty
deriving DecidableEq, Repr

namespace MethodDecl

def constructorName : String := "<init>"

/-- A constructor works on an object, so it is not static whatever its modifiers say. -/
def ofConstructor (container : ClassId) (modifiers : Modifiers) (formals : List Ty) :
    MethodDecl where
  name := constructorName
  container := container
  modifiers := modifiers.without .static
  kind := .constructor
  formals := formals
  result := .void

def isStatic (m : MethodDecl) : Bool := m.modifiers.isStatic

def hasReceiver (m : MethodDecl) : Bool := !m.isStatic

/-- The procedure takes part in dynamic dispatch. -/
def isVirtual (m : MethodDecl) : Bool :=
  m.kind = .method && m.hasReceiver && !m.modifiers.isPrivate

def erasedFormals (m : MethodDecl) : List Ty := m.formals.map Ty.erase

/-- A method overrides another of the same name and the same erased formals. -/
def overrides (m base : MethodDecl) : Bool :=
  m.name = base.name && m.erasedFormals = base.erasedFormals

end MethodDecl

abbrev ClassEntry := Entry .classDecl ClassDecl
abbrev FieldEntry := Entry .fieldDecl FieldDecl
abbrev MethodEntry := Entry .methodDecl MethodDecl

end ObjectAbi
