import Std.Data.TreeMap

/-!
# Identifiers

Everything that a program or its emitted code declares is numbered in the order of declaration.
An identifier is such a number together with the kind of thing that it numbers, so that a field
can never be looked up under the number of a method. The first numbers belong to what every program
starts from.
-/

namespace ObjectAbi

/-- The kinds of things that are numbered: declarations first, then the parts of emitted code. -/
inductive Entity
  | classDecl
  | fieldDecl
  | methodDecl
  | localVariable
  | irType
  | irStruct
  | irValue
  | irBlock
  | irFunction
  | irGlobal
deriving DecidableEq, Repr

def Entity.all : List Entity :=
  [.classDecl, .fieldDecl, .methodDecl, .localVariable,
    .irType, .irStruct, .irValue, .irBlock, .irFunction, .irGlobal]

/-- The number of one thing of kind `e`, counted from zero. -/
structure Ident (e : Entity) where
  raw : UInt32
deriving DecidableEq, Repr

abbrev ClassId := Ident .classDecl
abbrev FieldId := Ident .fieldDecl
/-- Methods and constructors share one numbering. -/
abbrev MethodId := Ident .methodDecl
abbrev LocalId := Ident .localVariable
abbrev ValueId := Ident .irValue
abbrev FunctionId := Ident .irFunction

namespace Ident

variable {e : Entity}

/-- How many things of one kind there can be: as many as there are 32-bit numbers. -/
def capacity : Nat := 4294967296

/-- The position of the thing in the sequence of its kind. -/
def index (i : Ident e) : Nat := i.raw.toNat

/-- The identifier of the thing at position `n`, for positions that a 32-bit number can hold. -/
def ofIndex (n : Nat) : Ident e := ⟨UInt32.ofNat n⟩

theorem index_lt (i : Ident e) : i.index < capacity := i.raw.toNat_lt

theorem index_ofIndex {n : Nat} (h : n < capacity) : (ofIndex n : Ident e).index = n :=
  UInt32.toNat_ofNat_of_lt' h

theorem ofIndex_index (i : Ident e) : ofIndex i.index = i := by
  simp [ofIndex, index]

theorem index_inj {i j : Ident e} : i.index = j.index ↔ i = j := by
  constructor
  · intro h
    rw [← ofIndex_index i, ← ofIndex_index j, h]
  · rintro rfl
    rfl

instance : Ord (Ident e) := ⟨compareOn raw⟩

instance : Std.TransOrd (Ident e) := inferInstanceAs (Std.TransCmp (compareOn raw))

instance : Std.LawfulEqOrd (Ident e) where
  compare_self {i} := (Std.ReflOrd.compare_self : compare i.raw i.raw = .eq)
  eq_of_compare {i j} h := by
    have raw_eq : i.raw = j.raw := Std.LawfulEqOrd.eq_of_compare h
    cases i; cases j; simp_all

end Ident

/-! ## Built-in classes

Every program starts from three classes: the root of the hierarchy, the platform's string class, and
the class of all arrays, which has one field for the length.
-/

namespace Builtin

/-- The root of the hierarchy. -/
def object : ClassId := ⟨0⟩

def string : ClassId := ⟨1⟩

/-- The class that every array belongs to at run time. -/
def array : ClassId := ⟨2⟩

def arrayLength : FieldId := ⟨0⟩

def objectName : String := "jolt.lang.Object"
def stringName : String := "jolt.lang.String"
def arrayName : String := "jolt.lang.Array"
def arrayLengthName : String := "length"

end Builtin

end ObjectAbi
