import ObjectAbi.Proofs.Layout.FieldPartition
import ObjectAbi.Proofs.Layout.FieldStability

/-!
# Fields by their names

A name in a class means the nearest field of that name: the first declared one in the lowest class
that has any, static or not. The field lists of the class know the same names. A field that a name
means is in one of the two lists, and it has a position among the fields of an object exactly if it
is not static.
-/

namespace ObjectAbi

-- a search through an ordered list finds the least of the elements that it accepts.
theorem exists_least_of_findSome? {α β : Type} {R : α → α → Prop} {p : α → Option β} {xs : List α}
    {b : β} (hordered : xs.Pairwise R) (h : xs.findSome? p = some b) :
    ∃ x ∈ xs, p x = some b ∧ ∀ y ∈ xs, (p y).isSome → y = x ∨ R x y := by
  obtain ⟨before, x, after, rfl, hx, hbefore⟩ := List.findSome?_eq_some_iff.mp h
  rw [List.pairwise_append, List.pairwise_cons] at hordered
  refine ⟨x, by simp, hx, fun y hy hsome ↦ ?_⟩
  rcases List.mem_append.mp hy with hy | hy
  · rw [hbefore y hy] at hsome
    cases hsome
  · exact (List.mem_cons.mp hy).imp_right (hordered.2.1.1 y)

/-! ## Names within one class -/

namespace ClassView

variable {v : ClassView} {name : String} {i : FieldId}

theorem field?_eq_none_iff : v.field? name = none ↔ ∀ f ∈ v.fields, f.decl.name ≠ name := by
  simp [field?]

theorem field?_eq_findSome? :
    v.field? name = v.fields.findSome? fun f ↦ if f.decl.name = name then some f.id else none := by
  rw [field?]
  induction v.fields with
  | nil => rfl
  | cons f fields ih => by_cases hname : f.decl.name = name <;> simp [hname, ih]

theorem exists_first_of_field? (h : v.field? name = some i)
    (hordered : v.fields.Pairwise fun f g ↦ f.id.index < g.id.index) :
    ∃ f ∈ v.fields, f.id = i ∧ f.decl.name = name ∧
      ∀ g ∈ v.fields, g.decl.name = name → f.id.index ≤ g.id.index := by
  rw [field?_eq_findSome?] at h
  obtain ⟨f, hf, hfound, hleast⟩ := exists_least_of_findSome? hordered h
  obtain ⟨hname, hid⟩ : f.decl.name = name ∧ f.id = i := by simpa using hfound
  refine ⟨f, hf, hid, hname, fun g hg hgname ↦ ?_⟩
  rcases hleast g hg (by simp [hgname]) with rfl | hlt
  · exact Nat.le_refl _
  · exact Nat.le_of_lt hlt

end ClassView

/-! ## Names along the way up -/

namespace ClassTable

variable {t : ClassTable} {c : ClassId} {name : String} {i : FieldId} {f g : FieldEntry}

/-- The class declares the field or inherits it. -/
structure HasField (t : ClassTable) (c : ClassId) (f : FieldEntry) : Prop where
  lookup : t.fieldDecl f.id = .ok f.decl
  inherits : t.Inherits c f.decl.container

/-- Of the fields of one name that a class has, the field is the first declared one in the lowest
class. -/
structure NearestField (t : ClassTable) (c : ClassId) (name : String) (f : FieldEntry) : Prop
    extends t.HasField c f where
  named : f.decl.name = name
  nearest : ∀ g, t.HasField c g → g.decl.name = name →
    t.Inherits f.decl.container g.decl.container ∧
      (g.decl.container = f.decl.container → f.id.index ≤ g.id.index)

theorem Acyclic.hasField_iff (h : t.Acyclic) (ht : t.Consistent) :
    t.HasField c f ↔ ∃ v ∈ (t.lineage c).views, f ∈ v.fields := by
  have hmem : f ∈ (t.lineage c).views.reverse.flatMap (·.fields) ↔
      t.fieldDecl f.id = .ok f.decl ∧ t.Inherits c f.decl.container :=
    h.mem_flatMap_views_iff ht (fun hv _ ↦ ht.mem_fields_of_view_iff hv) fun f hf ↦
      ht.fields.container_lt (Arena.get_eq_ok_iff.mp hf)
  simp only [List.mem_flatMap, List.mem_reverse] at hmem
  rw [hmem]
  exact ⟨fun hf ↦ ⟨hf.lookup, hf.inherits⟩, fun hf ↦ ⟨hf.1, hf.2⟩⟩

theorem Acyclic.nearestField_of_findSome? (h : t.Acyclic) (ht : t.Consistent)
    (hfound : (t.lineage c).views.findSome? (fun v ↦ v.field? name) = some i) :
    ∃ d, t.NearestField c name ⟨i, d⟩ := by
  have hview : ∀ v ∈ (t.lineage c).views, t.view v.id = .ok v := fun v hv ↦
    ((h.mem_views_iff ht).mp hv).1
  obtain ⟨v, hv, hfield, hlowest⟩ := exists_least_of_findSome? (h.pairwise_views ht c) hfound
  obtain ⟨f, hf, rfl, hname, hfirst⟩ :=
    ClassView.exists_first_of_field? hfield (ht.increasing_fields_of_view (hview v hv))
  have hcontainer : ∀ w ∈ (t.lineage c).views, ∀ g ∈ w.fields, g.decl.container = w.id :=
    fun w hw g hg ↦ ((ht.mem_fields_of_view_iff (hview w hw)).mp hg).2
  refine ⟨f.decl, (h.hasField_iff ht).mpr ⟨v, hv, hf⟩, hname, fun g hg hgname ↦ ?_⟩
  -- the class of another field of the name is the one that the search stopped at, or above it
  obtain ⟨w, hw, hgw⟩ := (h.hasField_iff ht).mp hg
  have hsome : (w.field? name).isSome := by
    rw [Option.isSome_iff_ne_none, Ne, ClassView.field?_eq_none_iff]
    exact fun hnone ↦ hnone g hgw hgname
  rw [hcontainer v hv f hf, hcontainer w hw g hgw]
  rcases hlowest w hw hsome with rfl | habove
  · exact ⟨.refl, fun _ ↦ hfirst g hgw hgname⟩
  · exact ⟨habove.to_reflTransGen, fun hsame ↦ absurd (hsame ▸ habove) (h _)⟩

/-- The look-up of a name comes to an end. It finds the nearest field of the name, and nothing only
if there is none. -/
theorem Rooted.exists_findField (h : t.Rooted) (ht : t.Consistent) (hc : t.Declared c)
    (name : String) :
    ∃ found, t.findField c name = .ok found ∧
      (found = none ↔ ∀ f, t.HasField c f → f.decl.name ≠ name) ∧
      ∀ i, found = some i → ∃ d, t.NearestField c name ⟨i, d⟩ := by
  refine ⟨_, (h.complete ht hc).findField_eq name, ?_, fun i hi ↦
    h.acyclic.nearestField_of_findSome? ht hi⟩
  simp only [List.findSome?_eq_none_iff, ClassView.field?_eq_none_iff, h.acyclic.hasField_iff ht]
  exact ⟨fun hnone f ⟨v, hv, hf⟩ ↦ hnone v hv f hf, fun hnone v hv f hf ↦ hnone f ⟨v, hv, hf⟩⟩

end ClassTable

/-! ## Names and field lists -/

namespace Layout

variable {t : ClassTable} {c : ClassId}

-- a list of different fields is no longer than the arena of all fields.
theorem length_fieldsOf_le (h : t.Acyclic) (ht : t.Consistent) {kind : FieldKind}
    {fields : List FieldEntry} (hfields : t.fieldsOf kind c = .ok fields) :
    fields.length ≤ Ident.capacity :=
  (Arena.length_le_of_nodup (h.nodup_fieldsOf ht hfields) fun _ hf ↦
    ((h.mem_fieldsOf_iff ht hfields).mp hf).1.1).trans t.fields.size_le

-- a list that is not too long does not run out of positions.
theorem exists_fieldIndex?_iff {fields : List FieldEntry} {f : FieldId}
    (hcapacity : fields.length ≤ Ident.capacity) :
    (∃ i, fieldIndex? fields f = some i) ↔ f ∈ fields.map (·.id) := by
  have hnone : fieldIndex? fields f = none ↔ f ∉ fields.map (·.id) := by
    rw [fieldIndex?, position32?_eq_none_iff hcapacity]
    simp
  rw [← Option.ne_none_iff_exists', Ne, hnone, not_not]

-- so a field of an object has a position exactly if it is listed.
theorem exists_fieldIndex_iff (h : t.Acyclic) (ht : t.Consistent) {fields : List FieldEntry}
    (hfields : t.fieldsOf .perObject c = .ok fields) {i : FieldId} :
    (∃ k, (Query.fieldIndex c i).answer t = .ok (.fieldIndex k)) ↔ i ∈ fields.map (·.id) := by
  rw [← exists_fieldIndex?_iff (length_fieldsOf_le h ht hfields)]
  simp only [answer_fieldIndex_iff, hfields, Except.ok.injEq, exists_eq_left']

/-- The look-up of a name finds nothing exactly if the name is in neither list. A field that it
finds has the name, is in just one of the lists, has a position exactly if it is not static, and is
the nearest of all listed fields of its name: no other one belongs to a lower class, or was declared
earlier in the same class. -/
theorem name_means_nearest_listed_field (hreached : t.Reached) (hrooted : t.Rooted)
    (hc : t.Declared c) (name : String) (before before' before'' : List Query) :
    ∃ (perObject perClass : List FieldEntry) (found : Option FieldId),
      answerAfter t before (.fields .perObject c) = .ok (.fields perObject) ∧
      answerAfter t before' (.fields .perClass c) = .ok (.fields perClass) ∧
      t.findField c name = .ok found ∧
      (found = none ↔ ∀ f ∈ perObject ++ perClass, f.decl.name ≠ name) ∧
      ∀ i, found = some i → ∃ d, t.fieldDecl i = .ok d ∧ d.name = name ∧
        Xor (i ∈ perObject.map (·.id)) (i ∈ perClass.map (·.id)) ∧
        ((∃ k, answerAfter t before'' (.fieldIndex c i) = .ok (.fieldIndex k)) ↔ ¬ d.isStatic) ∧
        ∀ g ∈ perObject ++ perClass, g.decl.name = name →
          t.Inherits d.container g.decl.container ∧
            (g.decl.container = d.container → i.index ≤ g.id.index) := by
  have h := hrooted.acyclic
  have ht := hreached.consistent
  obtain ⟨perObject, hobject⟩ := (hrooted.complete ht hc).exists_fields .perObject
  obtain ⟨perClass, hclass⟩ := (hrooted.complete ht hc).exists_fields .perClass
  have hlisted : ∀ f, f ∈ perObject ++ perClass ↔ t.HasField c f := by
    intro f
    rw [List.mem_append, h.mem_fieldsOf_iff ht hobject, h.mem_fieldsOf_iff ht hclass]
    refine ⟨fun hf ↦ ?_, fun hf ↦ ?_⟩
    · rcases hf with ⟨⟨hlookup, -⟩, hinherits⟩ | ⟨⟨hlookup, -⟩, hinherits⟩ <;>
        exact ⟨hlookup, hinherits⟩
    · cases hkind : f.decl.kind with
      | perObject => exact .inl ⟨⟨hf.lookup, rfl⟩, hf.inherits⟩
      | perClass => exact .inr ⟨⟨hf.lookup, rfl⟩, hf.inherits⟩
  obtain ⟨found, hfound, hnone, hsome⟩ := hrooted.exists_findField ht hc name
  simp only [answerAfter_eq_answer h]
  refine ⟨perObject, perClass, found, bind_eq_ok_iff.mpr ⟨perObject, hobject, rfl⟩,
    bind_eq_ok_iff.mpr ⟨perClass, hclass, rfl⟩, hfound, ?_, fun i hi ↦ ?_⟩
  · simp only [hlisted, hnone]
  · obtain ⟨d, hnearest⟩ := hsome i hi
    have hobject_iff := h.mem_ids_fieldsOf_iff ht hobject hnearest.lookup
    have hclass_iff := h.mem_ids_fieldsOf_iff ht hclass hnearest.lookup
    simp only [FieldDecl.kind_eq_iff, hnearest.inherits, and_true] at hobject_iff hclass_iff
    refine ⟨d, hnearest.lookup, hnearest.named, ?_, ?_, fun g hg ↦
      hnearest.nearest g ((hlisted g).mp hg)⟩
    · rw [hobject_iff, hclass_iff, xor_comm, xor_not_right]
    · rw [exists_fieldIndex_iff h ht hobject, hobject_iff]

/-! ## A static field that hides others -/

namespace Hiding

def base : ClassId := ⟨3⟩
def derived : ClassId := ⟨4⟩

/-- Two classes, each of which declares a static field and a field of objects under one name. -/
def table : ClassTable := .ofDeclarations
  [.newClass "Base" {} none [],
    .newClass "Derived" {} (some (.ofClass base)) [],
    .field base "size" .int {},
    .field base "size" .long (.ofList [.static]),
    .field derived "size" .int (.ofList [.static]),
    .field derived "size" .long {}]

end Hiding

open Hiding in
theorem static_field_hides_field_of_objects :
    table.findField derived "size" = .ok (some ⟨3⟩) ∧
      (¬ ∃ k, answerAfter table [] (.fieldIndex derived ⟨3⟩) = .ok (.fieldIndex k)) ∧
      ∃ perObject : List FieldEntry,
        answerAfter table [] (.fields .perObject derived) = .ok (.fields perObject) ∧
        ∀ g ∈ perObject, g.decl.name = "size" → table.Inherits derived g.decl.container := by
  have hrooted : table.Rooted := ClassTable.rooted_ofDeclarations (by decide +kernel)
  have hsize : table.findField derived "size" = .ok (some ⟨3⟩) := by decide +kernel
  obtain ⟨perObject, perClass, found, hobject, -, hfound, -, hmeans⟩ :=
    name_means_nearest_listed_field (ClassTable.reached_ofDeclarations _) hrooted
      (by decide : table.Declared derived) "size" [] [] []
  cases hfound.symm.trans hsize
  obtain ⟨d, hd, -, -, hposition, hnearest⟩ := hmeans ⟨3⟩ rfl
  cases hd
  exact ⟨hsize, fun hindex ↦ hposition.mp hindex (by decide), perObject, hobject,
    fun g hg hname ↦ (hnearest g (List.mem_append_left _ hg) hname).1⟩

end Layout

end ObjectAbi
