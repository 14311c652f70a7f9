import ObjectAbi.Layout.DispatchVector
import ObjectAbi.Proofs.ClassTable.Hierarchy

/-!
# Layouts along inheritance

Field lists and slots are worked out class by class, from the root down. These lemmas give the
recursion over classes that this amounts to where no class inherits from itself, and what a layout
adds to the layout of a class any number of steps above.
-/

namespace ObjectAbi

variable {t : ClassTable} {kind : FieldKind} {c d : ClassId} {v : ClassView}

/-! ## One step -/

namespace ClassTable

theorem Acyclic.fieldsOf_of_error (h : t.Acyclic) {fault : Fault} (hv : t.view c = .error fault) :
    t.fieldsOf kind c = .error fault := by
  rw [fieldsOf, h.lineage_of_error hv]
  rfl

theorem Acyclic.fieldsOf_of_root (h : t.Acyclic) (hv : t.view c = .ok v)
    (hd : v.decl.superclass? = none) : t.fieldsOf kind c = .ok (v.fieldsOf kind) := by
  rw [fieldsOf, h.lineage_of_root hv hd]
  rfl

theorem Acyclic.fieldsOf_of_extends (h : t.Acyclic) (hv : t.view c = .ok v)
    (hstep : t.Extends c d) :
    t.fieldsOf kind c = (· ++ v.fieldsOf kind) <$> t.fieldsOf kind d := by
  rw [fieldsOf, h.lineage_of_extends hv hstep]
  rfl

theorem Acyclic.slots_of_error (h : t.Acyclic) {fault : Fault} (hv : t.view c = .error fault) :
    t.slots c = .error fault := by
  rw [slots, h.lineage_of_error hv]
  rfl

theorem Acyclic.slots_of_root (h : t.Acyclic) (hv : t.view c = .ok v)
    (hd : v.decl.superclass? = none) : t.slots c = .ok (v.slotsOver []) := by
  rw [slots, h.lineage_of_root hv hd]
  rfl

theorem Acyclic.slots_of_extends (h : t.Acyclic) (hv : t.view c = .ok v)
    (hstep : t.Extends c d) : t.slots c = v.slotsOver <$> t.slots d := by
  rw [slots, h.lineage_of_extends hv hstep]
  rfl

end ClassTable

/-! ## Any number of steps -/

namespace Lineage

theorem fields_prepend (below : List ClassView) (above : Lineage) :
    (prepend below above).fields kind =
      (· ++ below.reverse.flatMap (·.fieldsOf kind)) <$> above.fields kind := by
  induction below with
  | nil =>
    change above.fields kind = _
    simp
  | cons v below ih =>
    -- the lowest class is listed first, and its fields come last
    change (do return (← (prepend below above).fields kind) ++ v.fieldsOf kind) = _
    rw [ih]
    cases above.fields kind with
    | error fault => rfl
    | ok inherited =>
      simp only [List.reverse_cons, List.flatMap_append, List.flatMap_singleton,
        ← List.append_assoc]
      rfl

theorem slots_prepend (below : List ClassView) (above : Lineage) :
    (prepend below above).slots =
      (fun inherited ↦ below.foldr ClassView.slotsOver inherited) <$> above.slots := by
  induction below with
  | nil =>
    change above.slots = _
    simp
  | cons v below ih =>
    change (do return v.slotsOver (← (prepend below above).slots)) = _
    rw [ih]
    cases above.slots with
    | error fault => rfl
    | ok inherited => rfl

theorem Complete.exists_fields {l : Lineage} (h : l.Complete) (kind : FieldKind) :
    ∃ fields, l.fields kind = .ok fields := by
  induction l with
  | root v => exact ⟨_, rfl⟩
  | heir v above ih =>
    rcases ih h with ⟨inherited, hinherited⟩
    exact ⟨inherited ++ v.fieldsOf kind, bind_eq_ok_iff.mpr ⟨inherited, hinherited, rfl⟩⟩
  | broken c fault => exact h.elim

theorem Complete.exists_slots {l : Lineage} (h : l.Complete) : ∃ slots, l.slots = .ok slots := by
  induction l with
  | root v => exact ⟨_, rfl⟩
  | heir v above ih =>
    rcases ih h with ⟨inherited, hinherited⟩
    exact ⟨v.slotsOver inherited, bind_eq_ok_iff.mpr ⟨inherited, hinherited, rfl⟩⟩
  | broken c fault => exact h.elim

end Lineage

end ObjectAbi
