import ObjectAbi.ClassTable.Basic

/-!
# Lineages

The lineage of a class is the class, the class it inherits from, and so on up to the root. The way
up may end early, at a class that is not declared, and on a table where a class inherits from itself
it has no end; a lineage says so in its last part, and what needs that part is a fault.

A way up that meets no class twice is no longer than the number of classes, so a walk of one step
more decides which of the three it is.
-/

namespace ObjectAbi

/-- A class and everything above it. -/
inductive Lineage
  | root (v : ClassView)
  | heir (v : ClassView) (above : Lineage)
  /-- The class cannot be looked up. -/
  | broken (c : ClassId) (fault : Fault)
deriving Repr

namespace Lineage

/-- The classes that could be looked up, the lowest first. -/
def views : Lineage → List ClassView
  | root v => [v]
  | heir v above => v :: above.views
  | broken _ _ => []

/-- The class is met on the way up. It need not be declared itself. -/
def meets (c : ClassId) : Lineage → Except Fault Bool
  | root v => .ok (v.id = c)
  | heir v above => if v.id = c then .ok true else above.meets c
  | broken d fault => if d = c then .ok true else .error fault

/-- The field of the name in the lowest class that has one. -/
def findField (name : String) : Lineage → Except Fault (Option FieldId)
  | root v => .ok (v.field? name)
  | heir v above =>
    match v.field? name with
    | some f => .ok (some f)
    | none => above.findField name
  | broken _ fault => .error fault

end Lineage

namespace ClassTable

/-- The lineage of a class, given up after `n` classes. -/
def lineageWithin (t : ClassTable) : Nat → ClassId → Lineage
  | 0, c => .broken c .cyclicInheritance
  | n + 1, c =>
    match t.view c with
    | .error fault => .broken c fault
    | .ok v =>
      match v.decl.superclass? with
      | none => .root v
      | some c => .heir v (t.lineageWithin n c)

def lineage (t : ClassTable) (c : ClassId) : Lineage := t.lineageWithin (t.classes.size + 1) c

def isSubclass (t : ClassTable) (sub sup : ClassId) : Except Fault Bool := (t.lineage sub).meets sup

/-- The field that a name means in a class: its own, or else the nearest inherited one. -/
def findField (t : ClassTable) (c : ClassId) (name : String) : Except Fault (Option FieldId) :=
  (t.lineage c).findField name

/-- The first procedure that a class itself declares under a name with a number of formals. -/
def findMethod (t : ClassTable) (c : ClassId) (name : String) (arity : Nat) :
    Except Fault (Option MethodId) := do
  return (← t.view c).method? name arity

end ClassTable

end ObjectAbi
