import ObjectAbi.Proofs.Layout.Remembered
import ObjectAbi.Proofs.Layout.SlotSignatures

/-!
# Slots are virtual dispatch

Take all virtual methods of a class and of the classes above it, from the root down and in the order
of declaration, and put those of one signature together. The class has one slot for each of these
groups, in the order in which the groups begin. The first method of a group introduced the slot, and
the last one is what a call through the slot reaches. Nothing else is in a slot.
-/

namespace ObjectAbi

theorem MethodDecl.isVirtual_iff {m : MethodDecl} :
    m.isVirtual ↔ m.kind = .method ∧ ¬ m.isStatic ∧ ¬ m.modifiers.isPrivate := by
  simp [isVirtual, hasReceiver, and_assoc]

/-! ## The order of slots -/

namespace Slot

variable {slots : List Slot} {methods : List MethodEntry}

-- a method takes over a slot that is there, or introduces the last one.
theorem map_declared_place (slots : List Slot) (m : MethodEntry) :
    (place slots m).map (·.declared) = slots.map (·.declared) ∨
      (place slots m).map (·.declared) = slots.map (·.declared) ++ [m] := by
  induction slots with
  | nil => exact .inr rfl
  | cons s slots ih =>
    rw [place_cons]
    split
    · exact .inl rfl
    · exact ih.imp (congrArg (s.declared :: ·)) (congrArg (s.declared :: ·))

-- methods introduce slots in their own order.
theorem sublist_foldl_place (h : (slots.map (·.declared)).Sublist methods)
    (added : List MethodEntry) :
    ((added.foldl place slots).map (·.declared)).Sublist (methods ++ added) := by
  induction added generalizing methods slots with
  | nil => simpa using h
  | cons m added ih =>
    rw [List.append_cons]
    refine ih ?_
    rcases map_declared_place slots m with hsame | hnew
    · rw [hsame]
      exact h.trans (List.sublist_append_left methods [m])
    · rw [hnew]
      exact h.append (.refl [m])

end Slot

theorem Lineage.sublist_virtuals {l : Lineage} {slots : List Slot} (h : l.slots = .ok slots) :
    (slots.map (·.declared)).Sublist l.virtuals := by
  induction l generalizing slots with
  | root v =>
    cases h
    rw [virtuals_root]
    have hnone : (([] : List Slot).map (·.declared)).Sublist [] := .slnil
    exact Slot.sublist_foldl_place hnone v.virtuals
  | heir v above ih =>
    obtain ⟨inherited, hinherited, h⟩ := bind_eq_ok_iff.mp h
    cases h
    rw [virtuals_heir]
    exact Slot.sublist_foldl_place (ih hinherited) v.virtuals
  | broken c fault => cases h

/-! ## The virtual methods of a chain of classes -/

namespace ClassTable

variable {t : ClassTable} {c : ClassId}

/-- The first method belongs to a class strictly above, or to the same class and was declared
earlier. -/
def DeclaredBefore (t : ClassTable) (m n : MethodEntry) : Prop :=
  t.InheritsProperly n.decl.container m.decl.container ∨
    m.decl.container = n.decl.container ∧ m.id.index < n.id.index

/-- The list shows the virtual methods of the class and of all classes above it, from the root down
and in the order of declaration. -/
structure ListsVirtuals (t : ClassTable) (c : ClassId) (methods : List MethodEntry) : Prop where
  mem_iff : ∀ {m}, m ∈ methods ↔
    t.methodDecl m.id = .ok m.decl ∧ m.decl.isVirtual ∧ t.isSubclass c m.decl.container = .ok true
  ordered : methods.Pairwise t.DeclaredBefore

theorem Consistent.increasing_methods_of_view {v : ClassView} (ht : t.Consistent)
    (hv : t.view c = .ok v) : v.methods.Pairwise fun m n ↦ m.id.index < n.id.index := by
  obtain ⟨-, hdecl, -, hids, -⟩ := view_eq_ok_iff.mp hv
  have hincreasing := ht.methods.increasing (Arena.get_eq_ok_iff.mp hdecl)
  rwa [← hids, List.pairwise_map] at hincreasing

theorem Rooted.listsVirtuals (h : t.Rooted) (ht : t.Consistent) (hc : t.Declared c) :
    t.ListsVirtuals c (t.lineage c).virtuals := by
  refine ⟨fun {m} ↦ ?_, ?_⟩
  · rw [h.acyclic.mem_virtuals_iff ht, h.isSubclass_iff ht hc]
  · refine h.acyclic.pairwise_flatMap_views ht (fun hv _ ↦ ht.mem_virtuals_of_view_iff hv) ?_
      fun m n ↦ .inl
    intro c v hv
    refine ((ht.increasing_methods_of_view hv).filter _).imp_of_mem fun hm hn hlt ↦ ?_
    have hcontainer := ((ht.mem_virtuals_of_view_iff hv).mp hm).2
    exact .inr ⟨hcontainer.trans ((ht.mem_virtuals_of_view_iff hv).mp hn).2.symm, hlt⟩

end ClassTable

namespace Layout

variable {t : ClassTable} {c : ClassId}

/-- The slots of a class are its virtual methods and those of the classes above it, put together by
signature: one slot for each signature, in the order in which the signatures first occur, from the
first method of the signature to the last one. So each slot keeps virtual methods of these classes
only, each such method has a slot of its signature, and no two slots have one signature. -/
theorem slots_are_virtual_dispatch (hreached : t.Reached) (hrooted : t.Rooted) (hc : t.Declared c)
    (before : List Query) :
    ∃ (virtuals : List MethodEntry) (slots : List Slot), t.ListsVirtuals c virtuals ∧
      answerAfter t before (.slots c) = .ok (.slots slots) ∧
      (slots.map (·.declared)).Sublist virtuals ∧
      (∀ m ∈ virtuals, ∃! k : Nat, (slots.map (·.signature))[k]? = some m.decl.signature) ∧
      (∀ s ∈ slots, (withSignature s.signature virtuals).head? = some s.declared ∧
        (withSignature s.signature virtuals).getLast? = some s.implementation) ∧
      (∀ s ∈ slots, ∀ m ∈ [s.declared, s.implementation], t.methodDecl m.id = .ok m.decl ∧
        m.decl.kind = .method ∧ ¬ m.decl.isStatic ∧ ¬ m.decl.modifiers.isPrivate ∧
        t.isSubclass c m.decl.container = .ok true) ∧
      (slots.map (·.signature)).Nodup := by
  have ht := hreached.consistent
  obtain ⟨slots, hslots⟩ : ∃ slots, t.slots c = .ok slots := (hrooted.complete ht hc).exists_slots
  have hlists := hrooted.listsVirtuals ht hc
  have hcollects := Lineage.collects_slots hslots
  refine ⟨_, slots, hlists, ?_, Lineage.sublist_virtuals hslots, fun m hm ↦ ?_,
    fun s hs ↦ ⟨hcollects.first s hs, hcollects.last s hs⟩, fun s hs m hm ↦ ?_, hcollects.distinct⟩
  · rw [answerAfter_eq_answer hrooted.acyclic]
    exact bind_eq_ok_iff.mpr ⟨slots, hslots, rfl⟩
  · obtain ⟨k, hk⟩ := List.mem_iff_getElem?.mp (hcollects.covers m hm)
    have hlt := (List.getElem?_eq_some_iff.mp hk).1
    refine ⟨k, hk, fun j hj ↦ ?_⟩
    exact ((List.getElem?_inj hlt hcollects.distinct).mp (hk.trans hj.symm)).symm
  · have hmem : m ∈ (t.lineage c).virtuals := by
      rcases List.mem_pair.mp hm with rfl | rfl
      · exact hcollects.declared_mem hs
      · exact (hcollects.implementation_mem hs).1
    obtain ⟨hlookup, hvirtual, hsubclass⟩ := hlists.mem_iff.mp hmem
    obtain ⟨hkind, hstatic, hprivate⟩ := MethodDecl.isVirtual_iff.mp hvirtual
    exact ⟨hlookup, hkind, hstatic, hprivate, hsubclass⟩

-- squares have an area of their own, which is private and so takes over no slot
theorem tile_dispatches_area_of_shape :
    ∃ slots : List Slot,
      answerAfter Shapes.table [] (.slots Shapes.tile) = .ok (.slots slots) ∧
      (∃! k : Nat, (slots.map (·.signature))[k]? = some Shapes.area.signature) ∧
      ∀ s ∈ slots, s.implementation.id ≠ ⟨3⟩ := by
  obtain ⟨virtuals, slots, hlists, hslots, -, hone, -, hkept, -⟩ :=
    slots_are_virtual_dispatch (c := Shapes.tile) Shapes.reached Shapes.rooted (by decide) []
  have hsubclass : Shapes.table.isSubclass Shapes.tile Shapes.shape = .ok true := by
    decide +kernel
  have harea : (⟨⟨0⟩, Shapes.area⟩ : MethodEntry) ∈ virtuals :=
    hlists.mem_iff.mpr ⟨rfl, by decide, hsubclass⟩
  refine ⟨slots, hslots, hone _ harea, fun s hs hid ↦ ?_⟩
  obtain ⟨hlookup, -, -, hprivate, -⟩ := hkept s hs s.implementation (by simp)
  rw [hid] at hlookup
  exact hprivate (Except.ok.inj hlookup ▸ (by decide))

end Layout

end ObjectAbi
