import ObjectAbi.Proofs.ClassTable.Growth
import ObjectAbi.Proofs.ClassTable.Walks
import ObjectAbi.Proofs.Layout.Correspondence

/-!
# Layouts of a grown table

In a grown table every class is seen with its own new members after the old ones, so a lineage
changes class by class. A class has the same lineage as before if no class on its way up gains a
member. The container of a new member differs from before in its own view alone: its lists go on
with the new field, and its slots are those of before with the new method placed.
-/

namespace ObjectAbi

/-! ## Classes with new members -/

namespace ClassView

variable (v : ClassView) (fields : List FieldEntry) (methods : List MethodEntry)

theorem fieldsOf_gain (kind : FieldKind) :
    (v.gain fields methods).fieldsOf kind = v.fieldsOf kind ++
      (ownedBy FieldDecl.container v.id fields).filter fun f ↦ f.decl.kind = kind :=
  List.filter_append _ _

theorem slotsOver_gain (inherited : List Slot) :
    (v.gain fields methods).slotsOver inherited =
      ((ownedBy MethodDecl.container v.id methods).filter fun m ↦ m.decl.isVirtual).foldl
        Slot.place (v.slotsOver inherited) := by
  simp only [slotsOver, virtuals, gain, List.filter_append, List.foldl_append]

end ClassView

namespace Slot

/-- The slots after a method was placed: it took over the slot of a method that it overrides, or it
overrides none of them and got a slot at the end. -/
inductive Placed (m : MethodEntry) (slots : List Slot) : List Slot → Prop
  | takesOver {k : Nat} {s : Slot} (hk : slots[k]? = some s)
      (hoverrides : m.decl.overrides s.declared.decl) :
      Placed m slots (slots.set k { s with implementation := m })
  | appended (hnone : ∀ s ∈ slots, ¬ m.decl.overrides s.declared.decl) :
      Placed m slots (slots ++ [⟨m, m⟩])

theorem placed_place (m : MethodEntry) (slots : List Slot) : Placed m slots (place slots m) := by
  induction slots with
  | nil => exact .appended (by simp)
  | cons s slots ih =>
    rw [place]
    by_cases hs : m.decl.overrides s.declared.decl
    · rw [if_pos hs]
      exact .takesOver (k := 0) rfl hs
    · rw [if_neg hs]
      generalize place slots m = after at ih
      cases ih with
      | takesOver hk hoverrides => exact .takesOver (k := _ + 1) hk hoverrides
      | appended hnone => exact .appended (List.forall_mem_cons.mpr ⟨hs, hnone⟩)

end Slot

/-! ## Lineages in a grown table -/

/-- The two lineages show different views of the lowest class, and are the same above it. -/
inductive Lineage.DifferAtHead (v v' : ClassView) : Lineage → Lineage → Prop
  | root : DifferAtHead v v' (root v) (root v')
  | heir (above : Lineage) : DifferAtHead v v' (heir v above) (heir v' above)

namespace Lineage.DifferAtHead

variable {v v' : ClassView} {l l' : Lineage}

theorem fields (h : DifferAtHead v v' l l') {kind : FieldKind} {added : List FieldEntry}
    (hown : v'.fieldsOf kind = v.fieldsOf kind ++ added) :
    l'.fields kind = (· ++ added) <$> l.fields kind := by
  cases h with
  | root => exact congrArg Except.ok hown
  | heir above =>
    rw [Lineage.fields, Lineage.fields, hown]
    cases above.fields kind with
    | error fault => rfl
    | ok inherited => exact congrArg Except.ok (List.append_assoc _ _ _).symm

theorem slots (h : DifferAtHead v v' l l') {added : List Slot → List Slot}
    (hown : ∀ inherited, v'.slotsOver inherited = added (v.slotsOver inherited)) :
    l'.slots = added <$> l.slots := by
  cases h with
  | root => exact congrArg Except.ok (hown [])
  | heir above =>
    rw [Lineage.slots, Lineage.slots]
    cases above.slots with
    | error fault => rfl
    | ok inherited => exact congrArg Except.ok (hown inherited)

end Lineage.DifferAtHead

namespace ClassTable

variable {t t' : ClassTable} {c e : ClassId} {v : ClassView} {d : Declaration} {id : DeclaredId}

theorem Rooted.lineage_of_gains (h : t.Rooted) (ht : t.Consistent) {fields : List FieldEntry}
    {methods : List MethodEntry} (hgains : t.Gains t' fields methods) (hc : t.Declared c) :
    t'.lineage c = (t.lineage c).map (·.gain fields methods) :=
  h.lineage_map ht hc hgains.size_le (fun _ ↦ rfl) fun _ _ _ ↦ hgains.view

section rooted

variable (h : t.Rooted) (hd : t.declare d = .ok (id, t'))

include h hd

-- a new member does not change who inherits from whom.
theorem Rooted.declare (he : d.container? = some e) : t'.Rooted :=
  h.of_superclass_eq (container_of_declare hd he).2 fun _ ↦ (gains_of_declare hd).superclass

variable (ht : t.Consistent)

include ht

-- where no class on the way up gains a member, the way up is the same.
theorem Rooted.lineage_of_declare (hc : t.Declared c)
    (hapart : ∀ e, d.container? = some e → ¬ t.Inherits c e) : t'.lineage c = t.lineage c := by
  have hgains := gains_of_declare hd
  rw [h.lineage_of_gains ht hgains hc]
  refine Lineage.map_eq_self fun v hv ↦ ?_
  have hinherits := ((h.acyclic.mem_views_iff ht).mp hv).2
  refine ClassView.gain_eq_self (fun f hf heq ↦ ?_) fun m hm heq ↦ ?_
  · exact hapart _ (Declaration.container?_of_mem_newFields hf) (heq ▸ hinherits)
  · exact hapart _ (Declaration.container?_of_mem_newMethods hm) (heq ▸ hinherits)

-- the container gains a member, and no class above it does.
theorem Rooted.lineage_of_container (he : d.container? = some e) (hv : t.view e = .ok v) :
    Lineage.DifferAtHead v (v.gain (d.newFields id) (d.newMethods id)) (t.lineage e)
      (t'.lineage e) := by
  have hgains := gains_of_declare hd
  rw [h.lineage_of_gains ht hgains (declared_of_view hv)]
  cases hsuperclass : v.decl.superclass? with
  | none =>
    rw [h.acyclic.lineage_of_root hv hsuperclass]
    exact .root
  | some b =>
    have hstep : t.Extends e b := (extends_iff_of_view hv).mpr hsuperclass
    have habove : t'.lineage b = t.lineage b := by
      refine h.lineage_of_declare hd ht (h.closed hstep) fun e' he' hinherits ↦ ?_
      cases he.symm.trans he'
      exact h.acyclic e (.head' hstep hinherits)
    rw [h.lineage_of_gains ht hgains (h.closed hstep)] at habove
    rw [h.acyclic.lineage_of_extends hv hstep, Lineage.map, habove]
    exact .heir _

-- a new field is listed last with those of its kind.
theorem Rooted.fieldsOf_of_container (he : d.container? = some e) (kind : FieldKind) :
    t'.fieldsOf kind e =
      (· ++ (d.newFields id).filter fun f ↦ f.decl.kind = kind) <$> t.fieldsOf kind e := by
  obtain ⟨v, hv⟩ := ht.exists_view (container_of_declare hd he).1
  refine (h.lineage_of_container hd ht he hv).fields ?_
  rw [v.fieldsOf_gain, id_of_view hv, Declaration.ownedBy_newFields he]

-- a new virtual method is placed in the slots.
theorem Rooted.slots_of_container (he : d.container? = some e) :
    t'.slots e =
      (((d.newMethods id).filter fun m ↦ m.decl.isVirtual).foldl Slot.place ·) <$> t.slots e := by
  obtain ⟨v, hv⟩ := ht.exists_view (container_of_declare hd he).1
  refine (h.lineage_of_container hd ht he hv).slots fun inherited ↦ ?_
  rw [v.slotsOver_gain, id_of_view hv, Declaration.ownedBy_newMethods he]

end rooted

end ClassTable

end ObjectAbi
