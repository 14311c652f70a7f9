import ObjectAbi.Proofs.Layout.Inheritance

/-!
# Corresponding tables

Two tables correspond when the classes of one are those of the other, changed one by one, and a
change leaves alone what a class inherits from. Then the way up from a class is the same in both
tables, class for class, and a layout changes just as its classes do: the order of fields and slots
stays, and so does everything that is read off identifiers.
-/

namespace ObjectAbi

/-- The entry with its declaration changed. -/
def Entry.map {e : Entity} {α β : Type} (f : α → β) (x : Entry e α) : Entry e β := ⟨x.id, f x.decl⟩

theorem Entry.ids_map {e : Entity} {α β : Type} (f : α → β) (xs : List (Entry e α)) :
    (xs.map (Entry.map f)).map (·.id) = xs.map (·.id) := by
  rw [List.map_map]
  rfl

namespace Slot

/-- The slot with both its methods changed. -/
def map (f : MethodEntry → MethodEntry) (s : Slot) : Slot := ⟨f s.declared, f s.implementation⟩

/-- The identifiers of the two methods that the slot keeps. -/
def ids (s : Slot) : MethodId × MethodId := (s.declared.id, s.implementation.id)

theorem ids_map {f : MethodEntry → MethodEntry} (hid : ∀ m, (f m).id = m.id) (slots : List Slot) :
    (slots.map (map f)).map ids = slots.map ids := by
  have hids : ids ∘ map f = ids := funext fun s ↦ Prod.ext (hid s.declared) (hid s.implementation)
  rw [List.map_map, hids]

end Slot

/-! ## Lineages -/

namespace Lineage

variable {g : ClassView → ClassView} {l : Lineage}

/-- The lineage with its classes changed one by one. -/
def map (g : ClassView → ClassView) : Lineage → Lineage
  | root v => root (g v)
  | heir v above => heir (g v) (above.map g)
  | broken c fault => broken c fault

theorem map_eq_self (h : ∀ v ∈ l.views, g v = v) : l.map g = l := by
  induction l with
  | root v => rw [map, h v (List.mem_singleton_self v)]
  | heir v above ih =>
    rw [map, h v List.mem_cons_self, ih fun w hw ↦ h w (List.mem_cons_of_mem v hw)]
  | broken c fault => rfl

theorem meets_map (hid : ∀ v, (g v).id = v.id) (c : ClassId) :
    (l.map g).meets c = l.meets c := by
  induction l with
  | root v => rw [map, meets, meets, hid]
  | heir v above ih => rw [map, meets, meets, hid, ih]
  | broken d fault => rfl

theorem findField_map {name : String} (hfield : ∀ v, (g v).field? name = v.field? name) :
    (l.map g).findField name = l.findField name := by
  induction l with
  | root v => rw [map, findField, findField, hfield]
  | heir v above ih => rw [map, findField, findField, hfield, ih]
  | broken d fault => rfl

theorem fields_map {kind : FieldKind} {f : FieldEntry → FieldEntry}
    (hown : ∀ v, (g v).fieldsOf kind = (v.fieldsOf kind).map f) :
    (l.map g).fields kind = List.map f <$> l.fields kind := by
  induction l with
  | root v => exact congrArg Except.ok (hown v)
  | heir v above ih =>
    rw [map, fields, fields, ih, hown]
    cases above.fields kind with
    | error fault => rfl
    | ok inherited => exact congrArg Except.ok List.map_append.symm
  | broken c fault => rfl

end Lineage

/-! ## Slots -/

section slots

variable {f : MethodEntry → MethodEntry}
  (hoverrides : ∀ m base : MethodEntry, (f m).decl.overrides (f base).decl =
    m.decl.overrides base.decl)

include hoverrides

theorem Slot.place_map (slots : List Slot) (m : MethodEntry) :
    place (slots.map (map f)) (f m) = (place slots m).map (map f) := by
  induction slots with
  | nil => rfl
  | cons s slots ih =>
    rw [List.map_cons, place, place]
    change (if (f m).decl.overrides (f s.declared).decl then _ else _) = _
    rw [hoverrides, ih]
    cases m.decl.overrides s.declared.decl <;> rfl

variable {g : ClassView → ClassView} (hown : ∀ v, (g v).virtuals = v.virtuals.map f)

include hown

theorem ClassView.slotsOver_map (v : ClassView) (inherited : List Slot) :
    (g v).slotsOver (inherited.map (Slot.map f)) = (v.slotsOver inherited).map (Slot.map f) := by
  rw [slotsOver, slotsOver, hown, List.foldl_map]
  exact List.foldl_hom (List.map (Slot.map f)) (Slot.place_map hoverrides)

theorem Lineage.slots_map (l : Lineage) :
    (l.map g).slots = List.map (Slot.map f) <$> l.slots := by
  induction l with
  | root v => exact congrArg Except.ok (v.slotsOver_map hoverrides hown [])
  | heir v above ih =>
    rw [map, slots, slots, ih]
    cases above.slots with
    | error fault => rfl
    | ok inherited => exact congrArg Except.ok (v.slotsOver_map hoverrides hown inherited)
  | broken c fault => rfl

end slots

/-! ## Tables -/

namespace ClassTable

variable {t t' : ClassTable} {g : ClassView → ClassView} {c : ClassId}

-- the walk in the second table may be given up later: a way up that ends does so in both.
theorem lineageWithin_map (hsuperclass : ∀ v, (g v).decl.superclass? = v.decl.superclass?) {n : Nat}
    (hview : ∀ d v, t.Inherits c d → t.view d = .ok v → t'.view d = .ok (g v))
    (hcomplete : (t.lineageWithin n c).Complete) (k : Nat) :
    t'.lineageWithin (n + k) c = (t.lineageWithin n c).map g := by
  induction n generalizing c with
  | zero => exact hcomplete.elim
  | succ n ih =>
    rw [Nat.add_right_comm, lineageWithin, lineageWithin]
    cases hv : t.view c with
    | error fault =>
      rw [lineageWithin, hv] at hcomplete
      exact hcomplete.elim
    | ok v =>
      simp only [hview c v .refl hv, hsuperclass]
      cases hd : v.decl.superclass? with
      | none => rfl
      | some d =>
        have hstep : t.Extends c d := (extends_iff_of_view hv).mpr hd
        have habove := ih (fun d' v' hinherits ↦ hview d' v' (.head hstep hinherits))
          (complete_above hcomplete hstep)
        simp only [habove]
        rfl

/-- Where the classes above a class correspond in two tables, its lineages do. -/
theorem Rooted.lineage_map (h : t.Rooted) (ht : t.Consistent) (hc : t.Declared c)
    (hsize : t.classes.size ≤ t'.classes.size)
    (hsuperclass : ∀ v, (g v).decl.superclass? = v.decl.superclass?)
    (hview : ∀ d v, t.Inherits c d → t.view d = .ok v → t'.view d = .ok (g v)) :
    t'.lineage c = (t.lineage c).map g := by
  have hmap := lineageWithin_map hsuperclass hview (h.complete ht hc)
    (t'.classes.size - t.classes.size)
  rwa [Nat.add_right_comm, Nat.add_sub_cancel' hsize] at hmap

-- whether a table is rooted depends on its superclasses only.
theorem Rooted.of_superclass_eq (h : t.Rooted) (hsize : t'.classes.size = t.classes.size)
    (hsuperclass : ∀ c, t.Declared c → t'.superclass c = t.superclass c) : t'.Rooted := by
  have hstep : ∀ {c d}, t'.Extends c d → t.Extends c d := by
    intro c d hextends
    have hc : t.Declared c := by
      rw [Declared, ← hsize]
      exact hextends.declared
    exact (hsuperclass c hc).symm.trans hextends
  refine ⟨fun c hcycle ↦ h.acyclic c (Relation.TransGen.mono (fun _ _ ↦ hstep) c c hcycle), ?_⟩
  intro c d hextends
  rw [Declared, hsize]
  exact h.closed (hstep hextends)

end ClassTable

end ObjectAbi
