import ObjectAbi.ClassTable.Basic

/-!
# Declaring

A table grows by one declaration at a time. A member is listed last in its class, and the class has
to be declared before; a superclass has not.
-/

namespace ObjectAbi

inductive Declaration
  /-- A class without a superclass extends the root. -/
  | newClass (name : String) (modifiers : Modifiers) (superclass : Option Ty)
      (typeParams : List String)
  | field (container : ClassId) (name : String) (ty : Ty) (modifiers : Modifiers)
  | method (container : ClassId) (name : String) (modifiers : Modifiers) (formals : List Ty)
      (result : Ty)
  | constructor (container : ClassId) (modifiers : Modifiers) (formals : List Ty)
deriving DecidableEq, Repr

inductive DeclaredId
  | newClass (c : ClassId)
  | field (f : FieldId)
  | method (m : MethodId)
deriving DecidableEq, Repr

namespace ClassTable

/-- Adds a class without members. The name now stands for this class. -/
def addClass (t : ClassTable) (name : String) (modifiers : Modifiers) (superclass : Option Ty)
    (typeParams : List String) : Except Fault (ClassId × ClassTable) := do
  let (c, classes) ← t.classes.push {
    name := name
    modifiers := modifiers
    superclass := some (superclass.getD (.ofClass Builtin.object))
    typeParams := typeParams }
  return (c, { t with classes := classes, names := t.names.insert name c })

/-- Adds a field, last among the fields of its class. -/
def addField (t : ClassTable) (decl : FieldDecl) : Except Fault (FieldId × ClassTable) := do
  let (f, fields) ← t.fields.push decl
  let classes ← t.classes.update decl.container fun d => { d with fields := d.fields ++ [f] }
  return (f, { t with fields := fields, classes := classes })

/-- Adds a method or constructor, last among the procedures of its class. -/
def addMethod (t : ClassTable) (decl : MethodDecl) : Except Fault (MethodId × ClassTable) := do
  let (m, methods) ← t.methods.push decl
  let classes ← t.classes.update decl.container fun d => { d with methods := d.methods ++ [m] }
  return (m, { t with methods := methods, classes := classes })

def declare (t : ClassTable) : Declaration → Except Fault (DeclaredId × ClassTable)
  | .newClass name modifiers superclass typeParams => do
    let (c, t) ← t.addClass name modifiers superclass typeParams
    return (.newClass c, t)
  | .field container name ty modifiers => do
    let (f, t) ← t.addField ⟨name, container, ty, modifiers⟩
    return (.field f, t)
  | .method container name modifiers formals result => do
    let (m, t) ← t.addMethod ⟨name, container, modifiers, .method, formals, result⟩
    return (.method m, t)
  | .constructor container modifiers formals => do
    let (m, t) ← t.addMethod (.ofConstructor container modifiers formals)
    return (.method m, t)

def declareAll (t : ClassTable) : List Declaration → Except Fault ClassTable
  | [] => .ok t
  | d :: ds => do
    let (_, t) ← t.declare d
    t.declareAll ds

end ClassTable

end ObjectAbi
