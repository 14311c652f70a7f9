import ObjectAbi.DebugScopes

/-!
# Options of a compilation unit

What a unit is compiled to: the names that its code refers to, the kind of machine it is emitted
for, and what a debugger is told.
-/

namespace ObjectAbi

/-- A kind of machine, by the width of a native word. -/
inductive Target
  /-- Words and pointers of 64 bits; the default. -/
  | lp64
  /-- Words and pointers of 32 bits. -/
  | ilp32
deriving DecidableEq, Repr, Inhabited

namespace Target

/-- The target's data layout, in the notation that emitted modules carry. -/
def description : Target → String
  | lp64 => "e-m:e-p270:32:32-p271:32:32-p272:64:64-i64:64-f80:128-n8:16:32:64-S128"
  | ilp32 => "e-m:e-p:32:32-i64:64-n8:16:32-S128"

def wordBytes : Target → Nat
  | lp64 => 8
  | ilp32 => 4

end Target

structure UnitOptions where
  moduleName : String := "jolt"
  /-- A procedure of this name starts a program. -/
  entryName : String := "main"
  /-- The class of the arguments that a program receives. -/
  stringClass : String := Builtin.stringName
  /-- The run-time function that allocates objects. -/
  allocator : String := "jolt_alloc"
  target : Target := .lp64
  debug : DebugLevel := .none
deriving DecidableEq, Repr, Inhabited

namespace UnitOptions

inductive Setting
  | moduleName (name : String)
  | entryName (name : String)
  | stringClass (name : String)
  | allocator (name : String)
  | target (target : Target)
  | debug (level : DebugLevel)
deriving DecidableEq, Repr

/-- Replaces one option and keeps the others. -/
def set (o : UnitOptions) : Setting → UnitOptions
  | .moduleName name => { o with moduleName := name }
  | .entryName name => { o with entryName := name }
  | .stringClass name => { o with stringClass := name }
  | .allocator name => { o with allocator := name }
  | .target target => { o with target := target }
  | .debug level => { o with debug := level }

/-- The options after each step of a series; a step that chooses nothing keeps them all. -/
def setEach (o : UnitOptions) : List (Option Setting) → List UnitOptions
  | [] => []
  | none :: rest => o :: o.setEach rest
  | some setting :: rest => o.set setting :: (o.set setting).setEach rest

/-- Nothing was chosen that is not the default anyway. -/
def isDefault (o : UnitOptions) : Bool := o = {}

end UnitOptions

end ObjectAbi
