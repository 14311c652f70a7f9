import ObjectAbi.ClassTable.Declare
import ObjectAbi.Layout.Query
import ObjectAbi.Run

/-!
# Requests

What a session on a class table can be asked to do, and what it replies.
-/

namespace ObjectAbi.Session

inductive Question
  | builtins
  | roster
  | classDecl (c : ClassId)
  | fieldDecl (f : FieldId)
  | methodDecl (m : MethodId)
  | classNamed (name : String)
  | superclass (c : ClassId)
  | isSubclass (sub sup : ClassId)
  | findField (c : ClassId) (name : String)
  | findMethod (c : ClassId) (name : String) (arity : Nat)
  | display (ty : Ty)
  | erasedClass (ty : Ty)
  | erase (ty : Ty)
  | displayErased (ty : Ty)
  | erasedField (f : FieldId)
  | traits (ty : Ty)
  | sameType (a b : Ty)
  | classSymbols (className : String)
  | procedureSymbol (m : MethodId)
  | staticFieldSymbol (f : FieldId)
deriving DecidableEq, Repr

inductive Request
  | declare (d : Declaration)
  | ask (q : Question)
  /-- Queries that share one memo, which is empty at first. -/
  | layout (queries : List Layout.Query)
deriving DecidableEq, Repr

inductive Reply
  | declared (id : DeclaredId)
  /-- The built-in identifiers are the same in every table; whether it is empty is not. -/
  | builtins (isEmpty : Bool)
  | roster (classes : List ClassEntry)
  | classDecl (d : ClassDecl)
  | fieldDecl (d : FieldDecl)
  | methodDecl (d : MethodDecl)
  | foundClass (c : Option ClassId)
  | foundField (f : Option FieldId)
  | foundMethod (m : Option MethodId)
  | truth (b : Bool)
  | text (s : String)
  | ty (ty : Ty)
  | traits (ty : Ty)
  | erasedField (f : ClassTable.ErasedField)
  | classSymbols (struct dispatchStruct dispatchVector : String)
  | layout (answers : Transcript Layout.Answer)
deriving DecidableEq, Repr

/-- A run of layout queries that a fault ended ends the session too. -/
def Reply.isFinal : Reply → Bool
  | layout answers => answers.fault.isSome
  | _ => false

def Question.answer (t : ClassTable) : Question → Except Fault Reply
  | builtins => .ok (.builtins t.isEmpty)
  | roster => .ok (.roster t.roster)
  | classDecl c => do return .classDecl (← t.classDecl c)
  | fieldDecl f => do return .fieldDecl (← t.fieldDecl f)
  | methodDecl m => do return .methodDecl (← t.methodDecl m)
  | classNamed name => .ok (.foundClass (t.classNamed? name))
  | superclass c => do return .foundClass (← t.superclass c)
  | isSubclass sub sup => do return .truth (← t.isSubclass sub sup)
  | findField c name => do return .foundField (← t.findField c name)
  | findMethod c name arity => do return .foundMethod (← t.findMethod c name arity)
  | display ty => do return .text (← t.display ty)
  | erasedClass ty => .ok (.foundClass ty.erasedClass?)
  | erase ty => .ok (.ty ty.erase)
  | displayErased ty => do return .text (← t.display ty.erase)
  | erasedField f => do return .erasedField (← t.erasedField f)
  | traits ty => .ok (.traits ty)
  | sameType a b => .ok (.truth (a = b))
  | classSymbols className =>
    .ok (.classSymbols (Symbol.classStruct className) (Symbol.dispatchVectorStruct className)
      (Symbol.dispatchVector className))
  | procedureSymbol m => do return .text (← Symbol.procedure t (← t.methodDecl m))
  | staticFieldSymbol f => do return .text (← Symbol.staticField t (← t.fieldDecl f))

end ObjectAbi.Session
