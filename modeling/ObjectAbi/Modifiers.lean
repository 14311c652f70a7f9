/-!
# Modifiers

The modifiers of a declaration are sixteen bits. Seven of them have a meaning; the others are kept
as they are given.
-/

namespace ObjectAbi

/-- A modifier with a meaning, from the lowest bit up. -/
inductive Modifier
  | publicAccess
  | privateAccess
  | protectedAccess
  | static
  | final
  | abstract
  | native
deriving DecidableEq, Repr

namespace Modifier

def all : List Modifier :=
  [publicAccess, privateAccess, protectedAccess, static, final, abstract, native]

def bit : Modifier → UInt16
  | publicAccess => 1
  | privateAccess => 2
  | protectedAccess => 4
  | static => 8
  | final => 16
  | abstract => 32
  | native => 64

/-- The word that a listing shows for the modifier. -/
def name : Modifier → String
  | publicAccess => "PUBLIC"
  | privateAccess => "PRIVATE"
  | protectedAccess => "PROTECTED"
  | static => "STATIC"
  | final => "FINAL"
  | abstract => "ABSTRACT"
  | native => "NATIVE"

end Modifier

/-- A set of modifiers; the empty set is the default. -/
structure Modifiers where
  bits : UInt16 := 0
deriving DecidableEq, Repr, Inhabited

namespace Modifiers

/-- The set is empty: not even a bit without a meaning is set. -/
def isEmpty (s : Modifiers) : Bool := s.bits == 0

def has (s : Modifiers) (m : Modifier) : Bool := s.bits &&& m.bit != 0

def add (s : Modifiers) (m : Modifier) : Modifiers := ⟨s.bits ||| m.bit⟩

/-- The set with a modifier taken out; every other bit stays. -/
def without (s : Modifiers) (m : Modifier) : Modifiers := ⟨s.bits &&& ~~~m.bit⟩

def ofList (ms : List Modifier) : Modifiers := ms.foldl add ⟨0⟩

/-- The modifiers of the set that have a meaning, from the lowest bit up. -/
def toList (s : Modifiers) : List Modifier := Modifier.all.filter s.has

def isStatic (s : Modifiers) : Bool := s.has .static

def isPublic (s : Modifiers) : Bool := s.has .publicAccess

def isPrivate (s : Modifiers) : Bool := s.has .privateAccess

/-- Native and abstract procedures have no body. -/
def lacksBody (s : Modifiers) : Bool := s.has .native || s.has .abstract

theorem has_without_self (s : Modifiers) (m : Modifier) : (s.without m).has m = false := by
  cases m <;> simp [has, without, UInt16.and_assoc, Modifier.bit]

end Modifiers

end ObjectAbi
