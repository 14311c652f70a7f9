import ObjectAbi.Layout.Object

/-!
# Dispatch vectors

The dispatch vector of a class starts with the class object and goes on with one slot for each
signature of its virtual methods. The slots of the class above come first; a method that overrides
another takes over its slot, and any other virtual method gets a new one at the end. A call through
a slot that was compiled against a class therefore finds the right procedure in every subclass.
-/

namespace ObjectAbi

/-- A slot: the method that introduced it, and the one that a call through it reaches. -/
structure Slot where
  declared : MethodEntry
  implementation : MethodEntry
deriving DecidableEq, Repr

namespace Slot

/-- Makes room for a virtual method: the first slot whose method it overrides, or else a new one. -/
def place : List Slot → MethodEntry → List Slot
  | [], m => [⟨m, m⟩]
  | s :: rest, m =>
    if m.decl.overrides s.declared.decl then { s with implementation := m } :: rest
    else s :: place rest m

/-- The method introduced the slot or is what a call through it reaches. -/
def holds (s : Slot) (m : MethodId) : Bool := s.declared.id = m || s.implementation.id = m

end Slot

namespace ClassView

/-- The methods of the class itself that are dispatched dynamically. -/
def virtuals (v : ClassView) : List MethodEntry := v.methods.filter fun m => m.decl.isVirtual

/-- The slots of a class, from those of the class above. -/
def slotsOver (v : ClassView) (inherited : List Slot) : List Slot :=
  v.virtuals.foldl Slot.place inherited

end ClassView

/-- The slots of a class, inherited ones first. -/
def Lineage.slots : Lineage → Except Fault (List Slot)
  | root v => .ok (v.slotsOver [])
  | heir v above => do return v.slotsOver (← above.slots)
  | broken _ fault => .error fault

/-- The slots of a class, inherited ones first. -/
def ClassTable.slots (t : ClassTable) (c : ClassId) : Except Fault (List Slot) :=
  (t.lineage c).slots

namespace Layout

/-- The position in a dispatch vector of the first slot, after the class object. -/
def firstSlotIndex : UInt32 := 1

/-- The position in a dispatch vector of the first slot that holds a method. -/
def slotIndex? (slots : List Slot) (m : MethodId) : Option UInt32 :=
  (position32? (fun s => s.holds m) slots).map (· + firstSlotIndex)

end Layout

end ObjectAbi
