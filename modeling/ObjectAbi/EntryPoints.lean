import ObjectAbi.Ident

/-!
# Entry points

The functions that a program can start from, as they are found while procedures are emitted.
-/

namespace ObjectAbi

structure EntryPoint where
  function : FunctionId
  className : String
deriving DecidableEq, Repr

/-- The entry points in the order in which they were found, no function twice. -/
structure EntryPoints where
  entries : List EntryPoint := []
deriving DecidableEq, Repr

namespace EntryPoints

/-- The function is registered, under whatever class. -/
def contains (e : EntryPoints) (f : FunctionId) : Bool := e.entries.any fun p => p.function = f

/-- Registers an entry point last, and says whether it was new. A function that is registered
already keeps the class it came with. -/
def register (e : EntryPoints) (p : EntryPoint) : Bool × EntryPoints :=
  if e.contains p.function then (false, e) else (true, ⟨e.entries ++ [p]⟩)

def length (e : EntryPoints) : Nat := e.entries.length

def isEmpty (e : EntryPoints) : Bool := e.entries.isEmpty

/-- Registers entry points in order, and says of each whether it was new. -/
def registerAll (e : EntryPoints) : List EntryPoint → List Bool × EntryPoints
  | [] => ([], e)
  | p :: rest =>
    let (isNew, e) := e.register p
    let (news, e) := e.registerAll rest
    (isNew :: news, e)

/-! ## Series of requests -/

inductive Request
  | register (p : EntryPoint)
  | list
deriving DecidableEq, Repr

inductive Reply
  | registered (isNew : Bool)
  | listed (e : EntryPoints)
deriving DecidableEq, Repr

def serveAll (e : EntryPoints) : List Request → List Reply
  | [] => []
  | .register p :: rest =>
    let (isNew, e) := e.register p
    .registered isNew :: e.serveAll rest
  | .list :: rest => .listed e :: e.serveAll rest

end EntryPoints

end ObjectAbi
