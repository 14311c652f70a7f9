import Mathlib.Data.Set.Function
import ObjectAbi.Proofs.Layout.FieldNames

/-!
# Positions of fields

The fields that each object of a class holds are numbered without gaps: each of them has one
position in the list of the class, and each position of the list belongs to one of them. The look-up
of a position gives just these numbers. For any other field it reports the names of the field and of
the class, so a field is looked up in vain in its own class only if it is static.
-/

namespace ObjectAbi

/-- The fields that each object of the class holds: those that the class declares or inherits and
that are not static. -/
def ClassTable.objectFields (t : ClassTable) (c : ClassId) : Set FieldId :=
  {f | ∃ d, t.fieldDecl f = .ok d ∧ ¬ d.isStatic ∧ t.isSubclass c d.container = .ok true}

namespace Layout

/-! ## Positions in a list without repetitions -/

section fieldIndex

variable {fields : List FieldEntry} {f : FieldId}

theorem fieldIndex?_eq_some_iff (hcapacity : fields.length ≤ Ident.capacity)
    (hnodup : (fields.map (·.id)).Nodup) {i : UInt32} :
    fieldIndex? fields f = some i ↔ (fields.map (·.id))[i.toNat]? = some f := by
  by_cases hf : f ∈ fields.map (·.id)
  · obtain ⟨k, hk⟩ := List.mem_iff_getElem?.mp hf
    obtain ⟨hlt, -⟩ := List.getElem?_eq_some_iff.mp hk
    have hposition : ∀ j, (fields.map (·.id))[j]? = some f ↔ j = k := by
      intro j
      rw [← hk, eq_comm, List.getElem?_inj hlt hnodup, eq_comm]
    obtain ⟨g, hg, hid⟩ : ∃ g, fields[k]? = some g ∧ g.id = f := by simpa using hk
    have hunique : ∀ j h, fields[j]? = some h → decide (h.id = f) → j = k := fun j h hj hid ↦
      (hposition j).mp (by simpa [hj] using hid)
    rw [fieldIndex?, position32?_of_unique hcapacity hg hunique, if_pos (by simpa using hid),
      hposition, Option.some_inj, ← UInt32.toNat_inj]
    rw [List.length_map] at hlt
    rw [UInt32.toNat_ofNat_of_lt' (hlt.trans_le hcapacity), eq_comm]
  · refine iff_of_false (fun hi ↦ ?_) fun hi ↦ hf (List.mem_of_getElem? hi)
    exact hf ((exists_fieldIndex?_iff hcapacity).mp ⟨i, hi⟩)

-- a position found is the only one of the field.
theorem getElem?_iff_of_fieldIndex? (hcapacity : fields.length ≤ Ident.capacity)
    (hnodup : (fields.map (·.id)).Nodup) {i : UInt32} (hi : fieldIndex? fields f = some i)
    {k : Nat} : (fields.map (·.id))[k]? = some f ↔ k = i.toNat := by
  have hplace := (fieldIndex?_eq_some_iff hcapacity hnodup).mp hi
  have hlt := (List.getElem?_eq_some_iff.mp hplace).1
  rw [← hplace, eq_comm, List.getElem?_inj hlt hnodup, eq_comm]

/-- The positions of the fields in a list without repetitions number it without gaps. -/
theorem bijOn_fieldIndex? (hcapacity : fields.length ≤ Ident.capacity)
    (hnodup : (fields.map (·.id)).Nodup) :
    Set.BijOn (fun f ↦ ((fieldIndex? fields f).getD 0).toNat) {f | f ∈ fields.map (·.id)}
      {k | k < fields.length} := by
  have hat : ∀ {f}, f ∈ fields.map (·.id) →
      (fields.map (·.id))[((fieldIndex? fields f).getD 0).toNat]? = some f := by
    intro f hf
    obtain ⟨i, hi⟩ := (exists_fieldIndex?_iff hcapacity).mpr hf
    rw [hi, Option.getD_some]
    exact (fieldIndex?_eq_some_iff hcapacity hnodup).mp hi
  refine ⟨fun f hf ↦ ?_, fun f hf g hg heq ↦ ?_, fun k hk ↦ ?_⟩
  · simpa using (List.getElem?_eq_some_iff.mp (hat hf)).1
  · exact Option.some.inj ((hat hf).symm.trans ((congrArg _ heq).trans (hat hg)))
  · -- the field at a position is found there
    have hk' : k < (fields.map (·.id)).length := by rwa [List.length_map]
    have hplace := List.getElem?_eq_getElem hk'
    have hmem := List.mem_of_getElem? hplace
    obtain ⟨i, hi⟩ := (exists_fieldIndex?_iff hcapacity).mpr hmem
    refine ⟨_, hmem, ?_⟩
    simp only [hi, Option.getD_some]
    exact ((getElem?_iff_of_fieldIndex? hcapacity hnodup hi).mp hplace).symm

end fieldIndex

/-! ## The fields of objects -/

variable {t : ClassTable} {c : ClassId} {fields : List FieldEntry} {f : FieldId}

theorem mem_objectFields_iff (hrooted : t.Rooted) (ht : t.Consistent) (hc : t.Declared c)
    (hfields : t.fieldsOf .perObject c = .ok fields) :
    f ∈ t.objectFields c ↔ f ∈ fields.map (·.id) := by
  have hlisted := fun {d} (hd : t.fieldDecl f = .ok d) ↦
    hrooted.acyclic.mem_ids_fieldsOf_iff ht hfields hd
  simp only [FieldDecl.kind_eq_iff] at hlisted
  simp only [ClassTable.objectFields, Set.mem_ofPred_eq, hrooted.isSubclass_iff ht hc]
  refine ⟨fun ⟨d, hd, hf⟩ ↦ (hlisted hd).mpr hf, fun hf ↦ ?_⟩
  obtain ⟨g, hg, rfl⟩ := List.mem_map.mp hf
  obtain ⟨⟨hd, -⟩, -⟩ := (hrooted.acyclic.mem_fieldsOf_iff ht hfields).mp hg
  exact ⟨g.decl, hd, (hlisted hd).mp hf⟩

-- the look-up of a position answers for the fields of objects, and for no others.
theorem exists_position_iff (hrooted : t.Rooted) (ht : t.Consistent) (hc : t.Declared c) :
    (∃ i, (Query.fieldIndex c f).answer t = .ok (.fieldIndex i)) ↔ f ∈ t.objectFields c := by
  obtain ⟨fields, hfields⟩ := (hrooted.complete ht hc).exists_fields .perObject
  rw [exists_fieldIndex_iff hrooted.acyclic ht hfields, mem_objectFields_iff hrooted ht hc hfields]

-- in its own class a field is one of the objects exactly if it is not static.
theorem mem_objectFields_container_iff {d : FieldDecl} (hd : t.fieldDecl f = .ok d) :
    f ∈ t.objectFields d.container ↔ ¬ d.isStatic := by
  refine ⟨fun ⟨d', hd', hstatic, _⟩ ↦ ?_, fun hstatic ↦ ?_⟩
  · cases hd.symm.trans hd'
    exact hstatic
  · exact ⟨d, hd, hstatic, ClassTable.isSubclass_self t d.container⟩

theorem answer_fieldIndex_of_none {d : FieldDecl} {decl : ClassDecl}
    (hfields : t.fieldsOf .perObject c = .ok fields) (hnone : fieldIndex? fields f = none)
    (hd : t.fieldDecl f = .ok d) (hdecl : t.classDecl c = .ok decl) :
    (Query.fieldIndex c f).answer t = .ok (.internalError (.fieldNotFound d.name decl.name)) := by
  refine bind_eq_ok_iff.mpr ⟨fields, hfields, ?_⟩
  rw [fieldIndexIn, hnone]
  exact bind_eq_ok_iff.mpr ⟨d, hd, bind_eq_ok_iff.mpr ⟨decl, hdecl, rfl⟩⟩

/-- The look-up of a position answers just for the fields that each object of the class holds. It
numbers them without gaps, by their only positions in the list of the class. For any other field the
answer is an error with the names of the field and of the class. So in its own class a field has a
position exactly if it is not static. -/
theorem positions_number_object_fields (hreached : t.Reached) (hrooted : t.Rooted)
    (hc : t.Declared c) :
    ∃ (fields : List FieldEntry) (decl : ClassDecl) (position : FieldId → UInt32),
      t.classDecl c = .ok decl ∧
      (∀ before, answerAfter t before (.fields .perObject c) = .ok (.fields fields)) ∧
      (∀ before f, f ∈ t.objectFields c →
        answerAfter t before (.fieldIndex c f) = .ok (.fieldIndex (position f)) ∧
        ∀ k, (fields.map (·.id))[k]? = some f ↔ k = (position f).toNat) ∧
      Set.BijOn (fun f ↦ (position f).toNat) (t.objectFields c) {k | k < fields.length} ∧
      (∀ before f d, t.fieldDecl f = .ok d → f ∉ t.objectFields c →
        answerAfter t before (.fieldIndex c f) =
          .ok (.internalError (.fieldNotFound d.name decl.name))) ∧
      ∀ before f d, t.fieldDecl f = .ok d →
        ((∃ i, answerAfter t before (.fieldIndex d.container f) = .ok (.fieldIndex i)) ↔
          ¬ d.isStatic) := by
  have ht := hreached.consistent
  obtain ⟨decl, hdecl⟩ := ClassTable.declared_iff.mp hc
  obtain ⟨fields, hfields⟩ : ∃ fields, t.fieldsOf .perObject c = .ok fields :=
    (hrooted.complete ht hc).exists_fields .perObject
  have hcapacity := length_fieldsOf_le hrooted.acyclic ht hfields
  have hnodup := hrooted.acyclic.nodup_fieldsOf ht hfields
  have hobject : t.objectFields c = {f | f ∈ fields.map (·.id)} :=
    Set.ext fun f ↦ mem_objectFields_iff hrooted ht hc hfields
  have hposition : ∀ f, f ∈ t.objectFields c ↔ ∃ i, fieldIndex? fields f = some i := by
    intro f
    rw [mem_objectFields_iff hrooted ht hc hfields, exists_fieldIndex?_iff hcapacity]
  simp only [answerAfter_eq_answer hrooted.acyclic]
  refine ⟨fields, decl, fun f ↦ (fieldIndex? fields f).getD 0, hdecl,
    fun _ ↦ bind_eq_ok_iff.mpr ⟨fields, hfields, rfl⟩, fun _ f hf ↦ ?_, ?_, fun _ f d hd hf ↦ ?_,
    fun _ f d hd ↦ ?_⟩
  · obtain ⟨i, hi⟩ := (hposition f).mp hf
    simp only [hi, Option.getD_some]
    exact ⟨answer_fieldIndex_iff.mpr ⟨fields, hfields, hi⟩, fun k ↦
      getElem?_iff_of_fieldIndex? hcapacity hnodup hi⟩
  · rw [hobject]
    exact bijOn_fieldIndex? hcapacity hnodup
  · have hnone : fieldIndex? fields f = none :=
      Option.eq_none_iff_forall_ne_some.mpr fun i hi ↦ hf ((hposition f).mpr ⟨i, hi⟩)
    exact answer_fieldIndex_of_none hfields hnone hd hdecl
  · have hcontainer : t.Declared d.container :=
      ht.fields.container_lt (Arena.get_eq_ok_iff.mp hd)
    rw [exists_position_iff hrooted ht hcontainer, mem_objectFields_container_iff hd]

-- the identity of a tile is no field of a square, and the count of shapes is in no object
theorem square_has_no_position_for_field_of_tile :
    answerAfter Shapes.table [] (.fieldIndex Shapes.square ⟨3⟩) =
        .ok (.internalError (.fieldNotFound "id" "Square")) ∧
      (¬ ∃ i, answerAfter Shapes.table [] (.fieldIndex Shapes.shape ⟨2⟩) = .ok (.fieldIndex i)) ∧
      ∃ i, answerAfter Shapes.table [.slots Shapes.tile] (.fieldIndex Shapes.square ⟨1⟩) =
        .ok (.fieldIndex i) ∧ i.toNat = 0 := by
  obtain ⟨fields, decl, position, hdecl, hlist, hfound, -, hmissed, hown⟩ :=
    positions_number_object_fields (c := Shapes.square) Shapes.reached Shapes.rooted (by decide)
  cases hdecl
  have hsubclass : Shapes.table.isSubclass Shapes.square Shapes.shape = .ok true ∧
      Shapes.table.isSubclass Shapes.square Shapes.tile = .ok false := by decide +kernel
  have hfields : answerAfter Shapes.table [] (.fields .perObject Shapes.square) =
      .ok (.fields [⟨⟨1⟩, "id", Shapes.shape, .int, {}⟩]) := by decide +kernel
  cases (hlist []).symm.trans hfields
  obtain ⟨hanswer, honly⟩ :=
    hfound [.slots Shapes.tile] ⟨1⟩ ⟨_, rfl, by decide, hsubclass.1⟩
  refine ⟨hmissed [] ⟨3⟩ _ rfl ?_, fun hcount ↦ (hown [] ⟨2⟩ _ rfl).mp hcount (by decide), _,
    hanswer, ((honly 0).mp rfl).symm⟩
  rintro ⟨d, hd, -, habove⟩
  cases hd
  cases hsubclass.2.symm.trans habove

end Layout

end ObjectAbi
