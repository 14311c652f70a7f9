import ObjectAbi.Proofs.Layout.SlotLookup
import ObjectAbi.Proofs.Layout.SlotStability
import ObjectAbi.Proofs.Layout.VirtualDispatch

/-!
# One number for each method

A look-up takes the first slot that keeps the method in either of its two places. It finds the slot
of the method's signature or nothing, because every method that a slot keeps is a virtual method of
the class or of a class above and has the signature of the slot. The slot of a signature is where it
was in the class that declares the method, and no class below moves it. So two classes that both
find a method find it under one number, also where neither of them inherits from the other.
-/

namespace ObjectAbi

/-- The method is not one that a call on an object of the class can be dispatched to: it is not
declared, it is no virtual method, or the class neither declares nor inherits it. -/
def ClassTable.Undispatched (t : ClassTable) (c : ClassId) (m : MethodId) : Prop :=
  t.methods.size ≤ m.index ∨ ∃ d, t.methodDecl m = .ok d ∧
    (d.kind = .constructor ∨ d.isStatic ∨ d.modifiers.isPrivate ∨ ¬ t.Inherits c d.container)

namespace Layout

/-! ## Positions and numbers -/

-- the class object takes the first number, and no number wraps round to it.
theorem toNat_slotNumber {k : Nat} (hk : k + 1 < Ident.capacity) :
    (UInt32.ofNat k + firstSlotIndex).toNat = k + 1 := by
  have htoNat : (UInt32.ofNat k).toNat = k := UInt32.toNat_ofNat_of_lt' (Nat.lt_of_succ_lt hk)
  have hone : firstSlotIndex.toNat = 1 := rfl
  rw [UInt32.toNat_add, htoNat, hone]
  exact Nat.mod_eq_of_lt hk

-- only a virtual method of the class or of a class above is found.
theorem exists_virtual_of_slotIndex? {l : Lineage} {slots : List Slot} {m : MethodId} {i : UInt32}
    (hslots : l.slots = .ok slots) (hi : slotIndex? slots m = some i) :
    ∃ n ∈ l.virtuals, n.id = m := by
  have hcollects := Lineage.collects_slots hslots
  obtain ⟨k, hk, -⟩ := Option.map_eq_some_iff.mp hi
  obtain ⟨s, hs, hholds⟩ := exists_of_position32? hk
  obtain hid | hid : s.declared.id = m ∨ s.implementation.id = m := by
    simpa [Slot.holds] using hholds
  · exact ⟨s.declared, hcollects.declared_mem hs, hid⟩
  · exact ⟨s.implementation, (hcollects.implementation_mem hs).1, hid⟩

section lookup

variable {t : ClassTable} {c : ClassId} {slots : List Slot} {s : Slot} {m : MethodEntry}
  {i : UInt32} (h : t.Acyclic) (ht : t.Consistent) (hslots : t.slots c = .ok slots)

include h ht hslots

-- a virtual method of the class is found in the slot of its signature, if at all.
theorem slotIndex?_eq_of_some (hm : m ∈ (t.lineage c).virtuals)
    (hi : slotIndex? slots m.id = some i) {k : Nat} (hk : slots[k]? = some s)
    (hsame : m.decl.signature = s.signature) : i = .ofNat k + firstSlotIndex := by
  rw [slotIndex?_eq h ht hslots hm hk hsame] at hi
  split at hi
  · exact (Option.some.inj hi).symm
  · cases hi

-- a method that is not virtual in the class is not found.
theorem slotIndex?_of_undispatched {id : MethodId} (hundispatched : t.Undispatched c id) :
    slotIndex? slots id = none := by
  refine Option.eq_none_iff_forall_ne_some.mpr fun i hi ↦ ?_
  obtain ⟨m, hm, rfl⟩ := exists_virtual_of_slotIndex? hslots hi
  obtain ⟨hlookup, hvirtual, hinherits⟩ := (h.mem_virtuals_iff ht).mp hm
  obtain hmissing | ⟨d, hd, hnot⟩ := hundispatched
  · exact Nat.not_le_of_lt (Arena.index_lt_of_get? (Arena.get_eq_ok_iff.mp hlookup)) hmissing
  · cases hlookup.symm.trans hd
    obtain ⟨hkind, hstatic, hprivate⟩ := MethodDecl.isVirtual_iff.mp hvirtual
    obtain hconstructor | hstatic' | hprivate' | hapart := hnot
    · cases hkind.symm.trans hconstructor
    · exact hstatic hstatic'
    · exact hprivate hprivate'
    · exact hapart hinherits

end lookup

/-! ## Classes agree -/

section rooted

variable {t : ClassTable} {c d : ClassId} {slots : List Slot} {m : MethodEntry} {i : UInt32}
  (h : t.Rooted) (ht : t.Consistent)

include h ht

/-- The number under which any class finds a method is the number of its signature in the class that
declares it. -/
theorem slotIndex?_eq_of_container (hc : t.Declared c) (hslots : t.slots c = .ok slots)
    (hm : m ∈ (t.lineage c).virtuals) (hi : slotIndex? slots m.id = some i) {own : List Slot}
    (hown : t.slots m.decl.container = .ok own) {k : Nat} {s : Slot} (hk : own[k]? = some s)
    (hsame : m.decl.signature = s.signature) : i = .ofNat k + firstSlotIndex := by
  have hinherits := ((h.acyclic.mem_virtuals_iff ht).mp hm).2.2
  obtain ⟨own', slots', hown', hslots', hgrown⟩ := h.slots_grown ht hc hinherits
  cases hown.symm.trans hown'
  cases hslots.symm.trans hslots'
  -- the slot is still there, introduced by the same method, whatever has taken it over
  obtain ⟨s', hk', hdeclared, -⟩ := hgrown.takenOver_getElem? hk
  have hsame' : m.decl.signature = s'.signature := by
    rw [hsame, Slot.signature, Slot.signature, hdeclared]
  exact slotIndex?_eq_of_some h.acyclic ht hslots hm hi hk' hsame'

theorem slotIndex?_unique {slots' : List Slot} {id : MethodId} {j : UInt32} (hc : t.Declared c)
    (hd : t.Declared d) (hslots : t.slots c = .ok slots) (hslots' : t.slots d = .ok slots')
    (hi : slotIndex? slots id = some i) (hj : slotIndex? slots' id = some j) : i = j := by
  obtain ⟨m, hm, hid⟩ := exists_virtual_of_slotIndex? hslots hi
  obtain ⟨m', hm', hid'⟩ := exists_virtual_of_slotIndex? hslots' hj
  obtain ⟨hlookup, hvirtual, hinherits⟩ := (h.acyclic.mem_virtuals_iff ht).mp hm
  have hsame : m' = m := Arena.entry_eq_of_id_eq ((h.acyclic.mem_virtuals_iff ht).mp hm').1 hlookup
    (hid'.trans hid.symm)
  rw [hsame] at hm'
  -- the number that both have is that of the class that declares the method
  have hcontainer := h.declared_of_inherits hc hinherits
  obtain ⟨own, hown⟩ : ∃ own, t.slots m.decl.container = .ok own :=
    (h.complete ht hcontainer).exists_slots
  have hmem : m ∈ (t.lineage m.decl.container).virtuals :=
    (h.acyclic.mem_virtuals_iff ht).mpr ⟨hlookup, hvirtual, .refl⟩
  obtain ⟨k, s, hk, hsignature⟩ := (Lineage.collects_slots hown).exists_getElem? hmem
  rw [← hid] at hi hj
  rw [slotIndex?_eq_of_container h ht hc hslots hm hi hown hk hsignature,
    slotIndex?_eq_of_container h ht hd hslots' hm' hj hown hk hsignature]

end rooted

/-- The number under which a class finds a method is that of one of its slots, behind the class
object. The method is then a virtual method of the class or of a class above, and the slot is the
only one of the class with its name and erased formals. All classes that find the method find it
under this number. A method that cannot be dispatched to is not found. -/
theorem slot_numbers_agree {t : ClassTable} (hreached : t.Reached) (hrooted : t.Rooted)
    (hmethods : t.methods.size < Ident.capacity - 1) {c d : ClassId} (hc : t.Declared c)
    (hd : t.Declared d) (m : MethodId) (before before' before'' : List Query) :
    ∃ (slots : List Slot) (found found' : Option UInt32),
      answerAfter t before (.slots c) = .ok (.slots slots) ∧
      answerAfter t before' (.slotIndex c m) = .ok (.slotIndex found) ∧
      answerAfter t before'' (.slotIndex d m) = .ok (.slotIndex found') ∧
      (∀ i, found = some i → 1 ≤ i.toNat ∧ i.toNat ≤ slots.length ∧
        ∃ decl, t.methodDecl m = .ok decl ∧ decl.isVirtual ∧ t.Inherits c decl.container ∧
          ∀ k s, slots[k]? = some s →
            (s.declared.decl.name = decl.name ∧
              s.declared.decl.erasedFormals = decl.erasedFormals ↔ k = i.toNat - 1)) ∧
      (∀ i j, found = some i → found' = some j → i = j) ∧
      (t.Undispatched c m → found = none) := by
  have h := hrooted.acyclic
  have ht := hreached.consistent
  obtain ⟨slots, hslots⟩ : ∃ slots, t.slots c = .ok slots := (hrooted.complete ht hc).exists_slots
  obtain ⟨slots', hslots'⟩ : ∃ slots, t.slots d = .ok slots := (hrooted.complete ht hd).exists_slots
  have hcollects := Lineage.collects_slots hslots
  simp only [answerAfter_eq_answer h]
  refine ⟨slots, slotIndex? slots m, slotIndex? slots' m, bind_eq_ok_iff.mpr ⟨slots, hslots, rfl⟩,
    bind_eq_ok_iff.mpr ⟨slots, hslots, rfl⟩, bind_eq_ok_iff.mpr ⟨slots', hslots', rfl⟩,
    fun i hi ↦ ?_, fun i j ↦ slotIndex?_unique hrooted ht hc hd hslots hslots',
    slotIndex?_of_undispatched h ht hslots⟩
  obtain ⟨n, hn, rfl⟩ := exists_virtual_of_slotIndex? hslots hi
  obtain ⟨hlookup, hvirtual, hinherits⟩ := (h.mem_virtuals_iff ht).mp hn
  obtain ⟨k, s, hk, hsame⟩ := hcollects.exists_getElem? hn
  have hlt := (List.getElem?_eq_some_iff.mp hk).1
  have hcapacity : k + 1 < Ident.capacity := by
    have hle := h.length_slots_le_size ht hslots
    omega
  have hnumber : i.toNat = k + 1 := by
    rw [slotIndex?_eq_of_some h ht hslots hn hi hk hsame, toNat_slotNumber hcapacity]
  rw [hnumber]
  refine ⟨Nat.le_add_left 1 k, hlt, n.decl, hlookup, hvirtual, hinherits, fun j s' hj ↦ ?_⟩
  rw [Nat.add_sub_cancel, ← hcollects.signature_eq_iff hj hk, ← hsame, Slot.signature,
    MethodDecl.signature, MethodDecl.signature, Prod.mk.injEq]

/-! ## Classes side by side -/

namespace Siblings

def widget : ClassId := ⟨3⟩
def button : ClassId := ⟨4⟩
def menu : ClassId := ⟨6⟩

/-- Buttons and menus are widgets, menus one step further down. A menu resizes in its own way. -/
def table : ClassTable := .ofDeclarations
  [.newClass "Widget" {} none [],
    .newClass "Button" {} (some (.ofClass widget)) [],
    .newClass "Panel" {} (some (.ofClass widget)) [],
    .newClass "Menu" {} (some (.ofClass ⟨5⟩)) [],
    .method button "click" {} [] .void,
    .method widget "draw" {} [] .void,
    .method widget "resize" {} [.int] .void,
    .method menu "resize" {} [.parameter "T" (some .int)] .void,
    .method menu "open" {} [] .void]

-- resizing has one number in both, although another method has taken over its slot in menus
theorem resize_has_one_number :
    ∃ i : UInt32, answerAfter table [] (.slotIndex button ⟨2⟩) = .ok (.slotIndex (some i)) ∧
      answerAfter table [.slots button] (.slotIndex menu ⟨2⟩) = .ok (.slotIndex (some i)) ∧
      answerAfter table [] (.slotIndex menu ⟨0⟩) = .ok (.slotIndex none) := by
  have hreached : table.Reached := ClassTable.reached_ofDeclarations _
  have hrooted : table.Rooted := ClassTable.rooted_ofDeclarations (by decide +kernel)
  obtain ⟨-, found, found', -, hbutton, hmenu, -, hagree, -⟩ :=
    slot_numbers_agree (c := button) (d := menu) hreached hrooted (by decide) (by decide)
      (by decide) ⟨2⟩ [] [] [.slots button]
  obtain ⟨-, missed, -, -, hmissed, -, -, -, hnone⟩ :=
    slot_numbers_agree (c := menu) (d := menu) hreached hrooted (by decide) (by decide)
      (by decide) ⟨0⟩ [] [] []
  have htwo : answerAfter table [] (.slotIndex button ⟨2⟩) = .ok (.slotIndex (some 2)) := by
    decide +kernel
  have hfound : answerAfter table [.slots button] (.slotIndex menu ⟨2⟩) ≠
      .ok (.slotIndex none) := by
    decide +kernel
  have hapart : ¬ table.Inherits menu button := by
    rw [← hrooted.isSubclass_iff hreached.consistent (by decide)]
    decide +kernel
  cases hbutton.symm.trans htwo
  rw [hnone (.inr ⟨_, rfl, .inr (.inr (.inr hapart))⟩)] at hmissed
  cases found' with
  | none => exact absurd hmenu hfound
  | some j =>
    rw [← hagree 2 j rfl rfl] at hmenu
    exact ⟨2, hbutton, hmenu, hmissed⟩

end Siblings

end Layout

end ObjectAbi
