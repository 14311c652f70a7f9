import ObjectAbi.Proofs.ClassTable.Walks
import ObjectAbi.Proofs.Layout.Remembered

/-!
# The fields of a chain of classes

The two field lists of a class hold the fields of the class and of all classes above it, each field
in the list of its kind, once. Fields of a class further up stand further in front, and the fields
of one class stand in the order of declaration; this settles the order of both lists.
-/

namespace ObjectAbi

theorem FieldDecl.kind_eq_iff {d : FieldDecl} :
    (d.kind = .perObject ↔ ¬ d.isStatic) ∧ (d.kind = .perClass ↔ d.isStatic) := by
  unfold kind
  cases d.isStatic <;> simp

-- in an ordered list the position of an element says how it compares with the others.
theorem lt_iff_of_pairwise {α : Type} {R : α → α → Prop} {xs : List α} {i j : Nat} {x y : α}
    (hordered : xs.Pairwise R) (hasymm : ∀ x y, R x y → ¬ R y x) (hi : xs[i]? = some x)
    (hj : xs[j]? = some y) : i < j ↔ R x y := by
  obtain ⟨hilt, rfl⟩ := List.getElem?_eq_some_iff.mp hi
  obtain ⟨hjlt, rfl⟩ := List.getElem?_eq_some_iff.mp hj
  have hbefore := List.pairwise_iff_getElem.mp hordered
  refine ⟨hbefore i j hilt hjlt, fun hR ↦ ?_⟩
  rcases Nat.lt_trichotomy i j with hlt | rfl | hgt
  · exact hlt
  · exact absurd hR (hasymm _ _ hR)
  · exact absurd (hbefore j i hjlt hilt hgt) (hasymm _ _ hR)

/-! ## The fields of a lineage -/

theorem Lineage.fields_eq_ok_iff {l : Lineage} {kind : FieldKind} {fields : List FieldEntry} :
    l.fields kind = .ok fields ↔
      l.Complete ∧ fields = l.views.reverse.flatMap (·.fieldsOf kind) := by
  induction l generalizing fields with
  | root v => simp [Lineage.fields, Complete, views, eq_comm]
  | heir v above ih =>
    rw [Lineage.fields, bind_eq_ok_iff, Complete]
    simp only [ih, views, List.reverse_cons, List.flatMap_append, List.flatMap_singleton]
    refine ⟨fun h ↦ ?_, fun h ↦ ⟨_, ⟨h.1, rfl⟩, h.2 ▸ rfl⟩⟩
    obtain ⟨inherited, ⟨hcomplete, rfl⟩, h⟩ := h
    exact ⟨hcomplete, (Except.ok.inj h).symm⟩
  | broken c fault => simp [Lineage.fields, Complete]

namespace ClassTable

variable {t : ClassTable} {c : ClassId} {kind : FieldKind} {fields : List FieldEntry}
  {f g : FieldEntry}

/-- Where both fields are listed, the first one stands before the second: it belongs to a class
strictly above, or to the same class and was declared earlier. -/
def Precedes (t : ClassTable) (f g : FieldEntry) : Prop :=
  t.InheritsProperly g.decl.container f.decl.container ∨
    f.decl.container = g.decl.container ∧ f.id.index < g.id.index

theorem Acyclic.precedes_asymm (h : t.Acyclic) (hfg : t.Precedes f g) : ¬ t.Precedes g f := by
  intro hgf
  rcases hfg with habove | ⟨hsame, hlt⟩
  · rcases hgf with hbelow | ⟨hsame, -⟩
    · exact h _ (hbelow.trans habove)
    · exact h _ (hsame ▸ habove)
  · rcases hgf with hbelow | ⟨-, hgt⟩
    · exact h _ (hsame ▸ hbelow)
    · exact Nat.lt_asymm hlt hgt

theorem Consistent.mem_fieldsOf_of_view_iff {v : ClassView} (ht : t.Consistent)
    (hv : t.view c = .ok v) :
    f ∈ v.fieldsOf kind ↔
      (t.fieldDecl f.id = .ok f.decl ∧ f.decl.kind = kind) ∧ f.decl.container = c := by
  rw [ClassView.fieldsOf, List.mem_filter, ht.mem_fields_of_view_iff hv, decide_eq_true_eq,
    and_right_comm]

/-- A list of a class shows just the fields of its kind that the class declares or inherits. -/
theorem Acyclic.mem_fieldsOf_iff (h : t.Acyclic) (ht : t.Consistent)
    (hfields : t.fieldsOf kind c = .ok fields) :
    f ∈ fields ↔
      (t.fieldDecl f.id = .ok f.decl ∧ f.decl.kind = kind) ∧ t.Inherits c f.decl.container := by
  obtain ⟨-, rfl⟩ := Lineage.fields_eq_ok_iff.mp hfields
  exact h.mem_flatMap_views_iff ht (fun hv _ ↦ ht.mem_fieldsOf_of_view_iff hv) fun f hf ↦
    ht.fields.container_lt (Arena.get_eq_ok_iff.mp hf.1)

theorem Acyclic.pairwise_precedes (h : t.Acyclic) (ht : t.Consistent)
    (hfields : t.fieldsOf kind c = .ok fields) : fields.Pairwise t.Precedes := by
  obtain ⟨-, rfl⟩ := Lineage.fields_eq_ok_iff.mp hfields
  refine h.pairwise_flatMap_views ht (fun hv _ ↦ ht.mem_fieldsOf_of_view_iff hv) ?_ fun f g ↦ .inl
  intro c v hv
  refine ((ht.increasing_fields_of_view hv).filter _).imp_of_mem fun hf hg hlt ↦ ?_
  have hcontainer := ((ht.mem_fieldsOf_of_view_iff hv).mp hf).2
  exact .inr ⟨hcontainer.trans ((ht.mem_fieldsOf_of_view_iff hv).mp hg).2.symm, hlt⟩

theorem Acyclic.nodup_fieldsOf (h : t.Acyclic) (ht : t.Consistent)
    (hfields : t.fieldsOf kind c = .ok fields) : (fields.map (·.id)).Nodup := by
  refine List.pairwise_map.mpr ?_
  refine (h.pairwise_precedes ht hfields).imp_of_mem fun hf hg hprecedes hid ↦ ?_
  have heq := Arena.entry_eq_of_id_eq ((h.mem_fieldsOf_iff ht hfields).mp hf).1.1
    ((h.mem_fieldsOf_iff ht hfields).mp hg).1.1 hid
  rw [heq] at hprecedes
  exact h.precedes_asymm hprecedes hprecedes

theorem Acyclic.mem_ids_fieldsOf_iff (h : t.Acyclic) (ht : t.Consistent)
    (hfields : t.fieldsOf kind c = .ok fields) {i : FieldId} {d : FieldDecl}
    (hd : t.fieldDecl i = .ok d) :
    i ∈ fields.map (·.id) ↔ d.kind = kind ∧ t.Inherits c d.container := by
  rw [List.mem_map]
  refine ⟨fun hi ↦ ?_, fun hi ↦ ?_⟩
  · obtain ⟨f, hf, rfl⟩ := hi
    obtain ⟨⟨hlookup, hkind⟩, hinherits⟩ := (h.mem_fieldsOf_iff ht hfields).mp hf
    cases hlookup.symm.trans hd
    exact ⟨hkind, hinherits⟩
  · exact ⟨⟨i, d⟩, (h.mem_fieldsOf_iff ht hfields).mpr ⟨⟨hd, hi.1⟩, hi.2⟩, rfl⟩

end ClassTable

namespace Layout

variable {t : ClassTable} {c : ClassId}

/-- The two lists of a class share no field and hold each of their fields once. They hold just the
fields of the class and of the classes above it, apart by kind, and a field stands before another
of its list exactly if it belongs to a class strictly above or was declared earlier in one class. -/
theorem field_lists_partition_chain (hreached : t.Reached) (hrooted : t.Rooted) (hc : t.Declared c)
    (before before' : List Query) :
    ∃ perObject perClass : List FieldEntry,
      answerAfter t before (.fields .perObject c) = .ok (.fields perObject) ∧
      answerAfter t before' (.fields .perClass c) = .ok (.fields perClass) ∧
      (perObject.map (·.id)).Nodup ∧ (perClass.map (·.id)).Nodup ∧
      (perObject.map (·.id)).Disjoint (perClass.map (·.id)) ∧
      (∀ f d, t.fieldDecl f = .ok d →
        (f ∈ perObject.map (·.id) ↔ ¬ d.isStatic ∧ t.isSubclass c d.container = .ok true) ∧
        (f ∈ perClass.map (·.id) ↔ d.isStatic ∧ t.isSubclass c d.container = .ok true)) ∧
      ∀ fields ∈ [perObject, perClass], (∀ f ∈ fields, t.fieldDecl f.id = .ok f.decl) ∧
        ∀ (i j : Nat) (f g : FieldEntry), fields[i]? = some f → fields[j]? = some g →
          (i < j ↔ t.Precedes f g) := by
  have h := hrooted.acyclic
  have ht := hreached.consistent
  have hcomplete := hrooted.complete ht hc
  obtain ⟨perObject, hobject⟩ := hcomplete.exists_fields .perObject
  obtain ⟨perClass, hclass⟩ := hcomplete.exists_fields .perClass
  have hmem := fun f d (hd : t.fieldDecl f = .ok d) ↦
    And.intro (h.mem_ids_fieldsOf_iff ht hobject hd) (h.mem_ids_fieldsOf_iff ht hclass hd)
  have hlist : ∀ kind fields, t.fieldsOf kind c = .ok fields →
      (∀ f ∈ fields, t.fieldDecl f.id = .ok f.decl) ∧
        ∀ (i j : Nat) (f g : FieldEntry), fields[i]? = some f → fields[j]? = some g →
          (i < j ↔ t.Precedes f g) := by
    intro kind fields hfields
    refine ⟨fun f hf ↦ ((h.mem_fieldsOf_iff ht hfields).mp hf).1.1, fun i j f g hi hj ↦ ?_⟩
    exact lt_iff_of_pairwise (h.pairwise_precedes ht hfields) (fun _ _ ↦ h.precedes_asymm) hi hj
  simp only [answerAfter_eq_answer h]
  refine ⟨perObject, perClass, bind_eq_ok_iff.mpr ⟨perObject, hobject, rfl⟩,
    bind_eq_ok_iff.mpr ⟨perClass, hclass, rfl⟩, h.nodup_fieldsOf ht hobject,
    h.nodup_fieldsOf ht hclass, ?_, ?_, ?_⟩
  · intro i hi hi'
    obtain ⟨f, hf, rfl⟩ := List.mem_map.mp hi
    have hlookup := ((h.mem_fieldsOf_iff ht hobject).mp hf).1.1
    have hkind := ((hmem _ _ hlookup).1.mp hi).1.symm.trans ((hmem _ _ hlookup).2.mp hi').1
    cases hkind
  · intro f d hd
    rw [hrooted.isSubclass_iff ht hc, ← FieldDecl.kind_eq_iff.1, ← FieldDecl.kind_eq_iff.2]
    exact hmem f d hd
  · simp only [List.forall_mem_cons]
    exact ⟨hlist _ _ hobject, hlist _ _ hclass, by simp⟩

-- of the three fields that a tile has, the second one is static
theorem identity_of_shape_precedes_that_of_tile :
    ∃ perObject perClass : List FieldEntry,
      answerAfter Shapes.table [] (.fields .perObject Shapes.tile) = .ok (.fields perObject) ∧
      answerAfter Shapes.table [.slots Shapes.tile] (.fields .perClass Shapes.tile) =
        .ok (.fields perClass) ∧
      ⟨1⟩ ∈ perObject.map (·.id) ∧ ⟨2⟩ ∉ perObject.map (·.id) ∧ ⟨2⟩ ∈ perClass.map (·.id) ∧
      ∀ (i j : Nat) (f g : FieldEntry), perObject[i]? = some f → perObject[j]? = some g →
        f.id = ⟨1⟩ → g.id = ⟨3⟩ → i < j := by
  obtain ⟨perObject, perClass, hobject, hclass, -, -, -, hmem, horder⟩ :=
    field_lists_partition_chain (c := Shapes.tile) Shapes.reached Shapes.rooted (by decide) []
      [.slots Shapes.tile]
  have hsubclass : Shapes.table.isSubclass Shapes.tile Shapes.shape = .ok true := by
    decide +kernel
  have hcount := hmem ⟨2⟩ _ rfl
  refine ⟨perObject, perClass, hobject, hclass, (hmem ⟨1⟩ _ rfl).1.mpr ⟨by decide, hsubclass⟩,
    fun h ↦ (hcount.1.mp h).1 (by decide), hcount.2.mpr ⟨by decide, hsubclass⟩, ?_⟩
  intro i j f g hi hj hf hg
  obtain ⟨hlookup, hposition⟩ := horder perObject List.mem_cons_self
  have hfirst := hlookup f (List.mem_of_getElem? hi)
  have hsecond := hlookup g (List.mem_of_getElem? hj)
  rw [hf] at hfirst
  rw [hg] at hsecond
  refine (hposition i j f g hi hj).mpr (.inl ?_)
  rw [← Except.ok.inj hfirst, ← Except.ok.inj hsecond]
  exact .head rfl (.single rfl)

end Layout

end ObjectAbi
