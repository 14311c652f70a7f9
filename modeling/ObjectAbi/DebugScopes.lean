import ObjectAbi.Ident

/-!
# Debug scopes

While procedures are emitted, the scopes that a debugger will show are recorded: each procedure
opens and closes one, and its parameters are bound to the values that hold their stack slots. At
level `none` nothing is recorded.
-/

namespace ObjectAbi

inductive DebugLevel
  | none
  | full
deriving DecidableEq, Repr, Inhabited

/-- One call of the recorder, and one entry of the record. -/
inductive DebugEvent
  | openScope (name : String)
  | closeScope
  /-- A parameter. `arg` counts from one and counts the receiver. -/
  | parameter (name : String) (arg : UInt32) (slot : ValueId)
deriving DecidableEq, Repr

structure DebugScopes where
  level : DebugLevel
  depth : Nat := 0
  events : Array DebugEvent := #[]
deriving DecidableEq, Repr

namespace DebugScopes

def isEnabled (d : DebugScopes) : Bool := d.level != .none

/-- Records one call. A scope is closed only if one is open. -/
def record (d : DebugScopes) (event : DebugEvent) : DebugScopes :=
  if d.isEnabled then
    match event with
    | .openScope _ => { d with depth := d.depth + 1, events := d.events.push event }
    | .closeScope =>
      match d.depth with
      | 0 => d
      | depth + 1 => { d with depth := depth, events := d.events.push event }
    | .parameter .. => { d with events := d.events.push event }
  else d

def recordEach (d : DebugScopes) : List DebugEvent → List DebugScopes
  | [] => []
  | event :: rest =>
    let d := d.record event
    d :: d.recordEach rest

def recordAll (d : DebugScopes) (calls : List DebugEvent) : DebugScopes := calls.foldl record d

end DebugScopes

end ObjectAbi
