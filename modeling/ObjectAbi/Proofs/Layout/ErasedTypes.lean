import ObjectAbi.Proofs.ClassTable.ErasedTables
import ObjectAbi.Proofs.Layout.Correspondence
import ObjectAbi.Proofs.ClassTable.Walks
import ObjectAbi.Proofs.Layout.PlainRecursion

/-!
# Layouts see erased types only

The erased table has the classes of the table with the types in them erased, and the way up from a
class is the same in both. A look-up by name compares no types, and an override is decided on types
that are erased, so both tables have the same layouts. Programs that agree once their types are
erased therefore have the same layouts too, whatever type arguments, names of type parameters and
bounds they are written with.
-/

namespace ObjectAbi

/-! ## Classes -/

theorem Arena.entries_map {e : Entity} {α β : Type} {f : α → β} {a : Arena e α}
    {is : List (Ident e)} {xs : List (Entry e α)}
    (h : xs.map (·.id) = is ∧ ∀ x ∈ xs, a.get x.id = .ok x.decl) :
    (xs.map (Entry.map f)).map (·.id) = is ∧
      ∀ x ∈ xs.map (Entry.map f), (a.map f).get x.id = .ok x.decl := by
  refine ⟨by rw [List.map_map, ← h.1]; rfl, fun y hy ↦ ?_⟩
  obtain ⟨x, hx, rfl⟩ := List.mem_map.mp hy
  exact (a.get_map f x.id).trans (congrArg (f <$> ·) (h.2 x hx))

namespace ClassView

/-- The class and its members with every type erased. -/
def erase (v : ClassView) : ClassView where
  id := v.id
  decl := v.decl.erase
  fields := v.fields.map (Entry.map FieldDecl.erase)
  methods := v.methods.map (Entry.map MethodDecl.erase)

variable (v : ClassView)

theorem field?_erase (name : String) : v.erase.field? name = v.field? name := by
  simp only [field?, erase, List.find?_map, Option.map_map]
  rfl

theorem method?_erase (name : String) (arity : Nat) :
    v.erase.method? name arity = v.method? name arity := by
  have harity : ∀ m : MethodEntry, (m.map MethodDecl.erase).decl.formals.length =
      m.decl.formals.length := fun m ↦ List.length_map _
  simp only [method?, erase, List.find?_map, Option.map_map, Function.comp_def, harity]
  rfl

theorem fieldsOf_erase (kind : FieldKind) :
    v.erase.fieldsOf kind = (v.fieldsOf kind).map (Entry.map FieldDecl.erase) := by
  simp only [fieldsOf, erase, List.filter_map]
  rfl

theorem virtuals_erase : v.erase.virtuals = v.virtuals.map (Entry.map MethodDecl.erase) := by
  simp only [virtuals, erase, List.filter_map]
  rfl

end ClassView

namespace ClassTable

variable {t : ClassTable} {c : ClassId} {v : ClassView}

theorem classDecl_erase (t : ClassTable) (c : ClassId) :
    t.erase.classDecl c = ClassDecl.erase <$> t.classDecl c :=
  t.classes.get_map ClassDecl.erase c

theorem fieldDecl_erase (t : ClassTable) (f : FieldId) :
    t.erase.fieldDecl f = FieldDecl.erase <$> t.fieldDecl f :=
  t.fields.get_map FieldDecl.erase f

theorem superclass_erase (t : ClassTable) (c : ClassId) :
    t.erase.superclass c = t.superclass c := by
  simp only [superclass, classDecl_erase, bind_map_left, ClassDecl.superclass?_erase]

theorem erasedField_erase (t : ClassTable) (f : FieldId) :
    t.erase.erasedField f = t.erasedField f := by
  have hty : ∀ d : FieldDecl, d.erase.ty.erase = d.ty.erase := fun d ↦ d.ty.erase_erase
  simp only [erasedField, fieldDecl_erase, bind_map_left, hty]
  rfl

theorem view_erase (hv : t.view c = .ok v) : t.erase.view c = .ok v.erase := by
  obtain ⟨hid, hdecl, hfields, hmethods⟩ := view_eq_ok_iff.mp hv
  refine view_eq_ok_iff.mpr ⟨hid, ?_, Arena.entries_map hfields, Arena.entries_map hmethods⟩
  exact (t.classDecl_erase c).trans (congrArg (ClassDecl.erase <$> ·) hdecl)

/-! ## Look-ups -/

section rooted

variable (h : t.Rooted) (ht : t.Consistent) (hc : t.Declared c)

include h ht hc

theorem Rooted.lineage_erase : t.erase.lineage c = (t.lineage c).map ClassView.erase :=
  h.lineage_map ht hc (t.classes.size_map _).ge (fun v ↦ v.decl.superclass?_erase)
    fun _ _ _ ↦ view_erase

theorem Rooted.isSubclass_erase (d : ClassId) : t.erase.isSubclass c d = t.isSubclass c d := by
  rw [isSubclass, h.lineage_erase ht hc, Lineage.meets_map (g := ClassView.erase) fun _ ↦ rfl]
  rfl

theorem Rooted.findField_erase (name : String) :
    t.erase.findField c name = t.findField c name := by
  rw [findField, h.lineage_erase ht hc, Lineage.findField_map fun v ↦ v.field?_erase name]
  rfl

theorem Rooted.fieldsOf_erase (kind : FieldKind) :
    t.erase.fieldsOf kind c = List.map (Entry.map FieldDecl.erase) <$> t.fieldsOf kind c := by
  rw [fieldsOf, h.lineage_erase ht hc, Lineage.fields_map fun v ↦ v.fieldsOf_erase kind]
  rfl

theorem Rooted.slots_erase :
    t.erase.slots c = List.map (Slot.map (Entry.map MethodDecl.erase)) <$> t.slots c := by
  rw [slots, h.lineage_erase ht hc,
    Lineage.slots_map (fun m base ↦ m.decl.overrides_erase base.decl) ClassView.virtuals_erase]
  rfl

end rooted

theorem findMethod_erase (ht : t.Consistent) (hc : t.Declared c) (name : String) (arity : Nat) :
    t.erase.findMethod c name arity = t.findMethod c name arity := by
  obtain ⟨v, hv⟩ := ht.exists_view hc
  simp only [findMethod, hv, view_erase hv]
  exact congrArg Except.ok (v.method?_erase name arity)

end ClassTable

namespace Layout

variable {t t' : ClassTable} {c : ClassId}

theorem position32?_map {α β : Type} (f : α → β) (p : β → Bool) (xs : List α) :
    position32? p (xs.map f) = position32? (p ∘ f) xs := by
  rw [position32?, position32?, List.findIdx?_map]

theorem fieldIndexIn_erase (t : ClassTable) (fields : List FieldEntry) (c : ClassId)
    (f : FieldId) :
    fieldIndexIn t.erase (fields.map (Entry.map FieldDecl.erase)) c f =
      fieldIndexIn t fields c f := by
  have hindex : fieldIndex? (fields.map (Entry.map FieldDecl.erase)) f = fieldIndex? fields f :=
    position32?_map _ _ fields
  simp only [fieldIndexIn, hindex, t.fieldDecl_erase, t.classDecl_erase, bind_map_left]
  rfl

theorem slotIndex?_erase (slots : List Slot) (m : MethodId) :
    slotIndex? (slots.map (Slot.map (Entry.map MethodDecl.erase))) m = slotIndex? slots m := by
  rw [slotIndex?, slotIndex?, position32?_map]
  rfl

section rooted

variable (h : t.Rooted) (ht : t.Consistent) (hc : t.Declared c)

include h ht hc

theorem answer_fieldIndex_erase (f : FieldId) :
    (Query.fieldIndex c f).answer t.erase = (Query.fieldIndex c f).answer t := by
  simp only [Query.answer, h.fieldsOf_erase ht hc, bind_map_left, fieldIndexIn_erase]

theorem answer_slotIndex_erase (m : MethodId) :
    (Query.slotIndex c m).answer t.erase = (Query.slotIndex c m).answer t := by
  simp only [Query.answer, h.slots_erase ht hc, bind_map_left, slotIndex?_erase]

end rooted

/-! ## Programs that differ in their types -/

/-- Both tables answer about all that is declared in the first one, and they answer with the same
identifiers and positions, whatever their layouts were asked before. -/
structure SameLayouts (t t' : ClassTable) : Prop where
  sizes : t'.classes.size = t.classes.size ∧ t'.fields.size = t.fields.size ∧
    t'.methods.size = t.methods.size
  superclass : ∀ c, t.Declared c → Agree (t.superclass c) (t'.superclass c)
  isSubclass : ∀ c d, t.Declared c → Agree (t.isSubclass c d) (t'.isSubclass c d)
  findField : ∀ c name, t.Declared c → Agree (t.findField c name) (t'.findField c name)
  findMethod : ∀ c name arity, t.Declared c →
    Agree (t.findMethod c name arity) (t'.findMethod c name arity)
  erasedField : ∀ f : FieldId, f.index < t.fields.size → Agree (t.erasedField f) (t'.erasedField f)
  fieldLists : ∀ kind c, t.Declared c → ∀ before before', ∃ listed listed' : List FieldEntry,
    answerAfter t before (.fields kind c) = .ok (.fields listed) ∧
    answerAfter t' before' (.fields kind c) = .ok (.fields listed') ∧
    listed'.map (·.id) = listed.map (·.id)
  fieldIndex : ∀ c (f : FieldId), t.Declared c → f.index < t.fields.size → ∀ before before',
    Agree (answerAfter t before (.fieldIndex c f)) (answerAfter t' before' (.fieldIndex c f))
  slots : ∀ c, t.Declared c → ∀ before before', ∃ slots slots' : List Slot,
    answerAfter t before (.slots c) = .ok (.slots slots) ∧
    answerAfter t' before' (.slots c) = .ok (.slots slots') ∧
    slots'.map Slot.ids = slots.map Slot.ids
  slotIndex : ∀ c (m : MethodId), t.Declared c → m.index < t.methods.size → ∀ before before',
    Agree (answerAfter t before (.slotIndex c m)) (answerAfter t' before' (.slotIndex c m))

section erase_eq

variable (herase : t'.erase = t.erase)

include herase

theorem sizes_of_erase_eq : t'.classes.size = t.classes.size ∧ t'.fields.size = t.fields.size ∧
    t'.methods.size = t.methods.size := by
  have hclasses := congrArg (·.classes.size) herase
  have hfields := congrArg (·.fields.size) herase
  have hmethods := congrArg (·.methods.size) herase
  simp only [ClassTable.erase, Arena.size_map] at hclasses hfields hmethods
  exact ⟨hclasses, hfields, hmethods⟩

theorem superclass_of_erase_eq (c : ClassId) : t'.superclass c = t.superclass c := by
  rw [← t'.superclass_erase, herase, t.superclass_erase]

variable (h : t.Rooted) (ht : t.Consistent) (h' : t'.Rooted) (ht' : t'.Consistent)
  (hc : t.Declared c) (hc' : t'.Declared c)

include h ht h' ht' hc hc'

theorem fieldsOf_of_erase_eq (kind : FieldKind) :
    ∃ listed listed', t.fieldsOf kind c = .ok listed ∧ t'.fieldsOf kind c = .ok listed' ∧
      listed'.map (·.id) = listed.map (·.id) := by
  obtain ⟨listed, hlisted⟩ := (h.complete ht hc).exists_fields kind
  have herased := h'.fieldsOf_erase ht' hc' kind
  rw [herase, h.fieldsOf_erase ht hc, show t.fieldsOf kind c = .ok listed from hlisted] at herased
  obtain ⟨listed', hlisted', heq⟩ := map_eq_ok_iff.mp herased.symm
  refine ⟨listed, listed', hlisted, hlisted', ?_⟩
  rw [← Entry.ids_map FieldDecl.erase, heq, Entry.ids_map]

theorem slots_of_erase_eq :
    ∃ slots slots', t.slots c = .ok slots ∧ t'.slots c = .ok slots' ∧
      slots'.map Slot.ids = slots.map Slot.ids := by
  obtain ⟨slots, hslots⟩ := (h.complete ht hc).exists_slots
  have herased := h'.slots_erase ht' hc'
  rw [herase, h.slots_erase ht hc, show t.slots c = .ok slots from hslots] at herased
  obtain ⟨slots', hslots', heq⟩ := map_eq_ok_iff.mp herased.symm
  have hids := Slot.ids_map (f := Entry.map MethodDecl.erase) fun _ ↦ rfl
  exact ⟨slots, slots', hslots, hslots', by rw [← hids, heq, hids]⟩

end erase_eq

/-- Tables that agree once their types are erased have one layout. -/
theorem sameLayouts_of_erase_eq (h : t.Rooted) (ht : t.Consistent) (ht' : t'.Consistent)
    (herase : t'.erase = t.erase) : SameLayouts t t' := by
  have hsizes := sizes_of_erase_eq herase
  have h' : t'.Rooted := h.of_superclass_eq hsizes.1 fun c _ ↦
    superclass_of_erase_eq herase c
  have hdeclared : ∀ {c}, t.Declared c → t'.Declared c := fun {c} hc ↦ by
    rwa [ClassTable.Declared, hsizes.1]
  have hanswer := answerAfter_eq_answer h.acyclic
  have hanswer' := answerAfter_eq_answer h'.acyclic
  refine ⟨hsizes, fun c hc ↦ ?_, fun c d hc ↦ ?_, fun c name hc ↦ ?_, fun c name arity hc ↦ ?_,
    fun f hf ↦ ?_, fun kind c hc before before' ↦ ?_, fun c f hc hf before before' ↦ ?_,
    fun c hc before before' ↦ ?_, fun c m hc hm before before' ↦ ?_⟩
  · obtain ⟨d, hd⟩ := ClassTable.declared_iff.mp hc
    exact .of_eq ⟨_, bind_eq_ok_iff.mpr ⟨d, hd, rfl⟩⟩ (superclass_of_erase_eq herase c)
  · obtain ⟨b, hb, -⟩ := h.exists_isSubclass ht hc d
    refine .of_eq ⟨b, hb⟩ ?_
    rw [← h'.isSubclass_erase ht' (hdeclared hc), herase, h.isSubclass_erase ht hc]
  · refine .of_eq ⟨_, (h.complete ht hc).findField_eq name⟩ ?_
    rw [← h'.findField_erase ht' (hdeclared hc), herase, h.findField_erase ht hc]
  · obtain ⟨v, hv⟩ := ht.exists_view hc
    refine .of_eq ⟨_, bind_eq_ok_iff.mpr ⟨v, hv, rfl⟩⟩ ?_
    rw [← ClassTable.findMethod_erase ht' (hdeclared hc), herase, ClassTable.findMethod_erase ht hc]
  · obtain ⟨d, hd⟩ := Arena.exists_get hf
    refine .of_eq ⟨_, bind_eq_ok_iff.mpr ⟨d, hd, rfl⟩⟩ ?_
    rw [← t'.erasedField_erase, herase, t.erasedField_erase]
  · obtain ⟨listed, listed', hlisted, hlisted', hids⟩ :=
      fieldsOf_of_erase_eq herase h ht h' ht' hc (hdeclared hc) kind
    rw [hanswer, hanswer']
    exact ⟨listed, listed', bind_eq_ok_iff.mpr ⟨_, hlisted, rfl⟩,
      bind_eq_ok_iff.mpr ⟨_, hlisted', rfl⟩, hids⟩
  · rw [hanswer, hanswer']
    refine .of_eq (exists_answer h ht ⟨hc, hf⟩) ?_
    rw [← answer_fieldIndex_erase h' ht' (hdeclared hc), herase, answer_fieldIndex_erase h ht hc]
  · obtain ⟨slots, slots', hslots, hslots', hids⟩ :=
      slots_of_erase_eq herase h ht h' ht' hc (hdeclared hc)
    rw [hanswer, hanswer']
    exact ⟨slots, slots', bind_eq_ok_iff.mpr ⟨_, hslots, rfl⟩,
      bind_eq_ok_iff.mpr ⟨_, hslots', rfl⟩, hids⟩
  · rw [hanswer, hanswer']
    refine .of_eq (exists_answer h ht ⟨hc, hm⟩) ?_
    rw [← answer_slotIndex_erase h' ht' (hdeclared hc), herase, answer_slotIndex_erase h ht hc]

/-- Programs that make the same declarations, with types that agree once they are erased, have one
layout: if the first can be declared and each way up in it ends at the root, so can the second, and
the two tables give the same answers. -/
theorem erased_types_determine_layouts {ds ds' : List Declaration}
    (hrun : Builtin.table.declareAll ds = .ok t) (hrooted : t.Rooted)
    (herased : ds'.map Declaration.erase = ds.map Declaration.erase) :
    ∃ t', Builtin.table.declareAll ds' = .ok t' ∧ SameLayouts t t' := by
  have hsame : ClassTable.erase <$> Builtin.table.declareAll ds' = .ok t.erase := by
    rw [← ClassTable.declareAll_erase, herased, ClassTable.declareAll_erase, hrun]
    rfl
  obtain ⟨t', hrun', herase⟩ := map_eq_ok_iff.mp hsame
  have hreached : t.Reached := ⟨ds, hrun⟩
  have hreached' : t'.Reached := ⟨ds', hrun'⟩
  exact ⟨t', hrun',
    sameLayouts_of_erase_eq hrooted hreached.consistent hreached'.consistent herase⟩

/-! ## Two programs that erase alike -/

namespace Boxes

def box : ClassId := ⟨3⟩
def crate : ClassId := ⟨4⟩

/-- A crate is a box of strings. It takes over the method that fills a box. -/
def generic : List Declaration :=
  [.newClass "Box" {} none ["T"],
    .newClass "Crate" {} (some (.classType box [.ofClass Builtin.string])) [],
    .field box "content" (.parameter "T" none) {},
    .method box "fill" {} [.parameter "U" (some (.classType box [.parameter "T" none]))] .void,
    .method crate "fill" {} [.classType box [.ofClass Builtin.string]] .void,
    .method crate "all" {} [] (.array (.classType box [.int]))]

/-- The same classes, with types that are written otherwise and erase alike. -/
def plain : List Declaration :=
  [.newClass "Box" {} none [],
    .newClass "Crate" {} (some (.parameter "V" (some (.ofClass box)))) [],
    .field box "content" (.ofClass Builtin.object) {},
    .method box "fill" {} [.ofClass box] .void,
    .method crate "fill" {} [.ofClass box] .void,
    .method crate "all" {} [] (.array (.ofClass box))]

def table : ClassTable := .ofDeclarations generic

end Boxes

open Boxes in
theorem plain_boxes_laid_out_as_generic :
    ∃ t', Builtin.table.declareAll plain = .ok t' ∧ SameLayouts table t' ∧
      t'.isSubclass crate box = .ok true := by
  have hrun : Builtin.table.declareAll generic = .ok table :=
    ClassTable.declareAll_ofDeclarations (by decide +kernel)
  have hrooted : table.Rooted := ClassTable.rooted_ofDeclarations (by decide +kernel)
  have herased : plain.map Declaration.erase = generic.map Declaration.erase := by decide +kernel
  obtain ⟨t', hrun', hsame⟩ := erased_types_determine_layouts hrun hrooted herased
  obtain ⟨b, hb, hb'⟩ := hsame.isSubclass crate box (by decide)
  cases hb.symm.trans (by decide +kernel : table.isSubclass crate box = .ok true)
  exact ⟨t', hrun', hsame, hb'⟩

end Layout

end ObjectAbi
