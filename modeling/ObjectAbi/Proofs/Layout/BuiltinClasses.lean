import ObjectAbi.Proofs.ClassTable.Runs
import ObjectAbi.Proofs.Layout.GrownLayouts
import ObjectAbi.Proofs.Layout.PlainFields

/-!
# The built-in classes survive

A program may add members to the built-in classes, declare classes of its own under their names, and
declare classes that inherit from themselves. The built-in classes keep their places all the same:
strings and arrays are right below the root. The length is the first field of an array that the root
does not have, so its position is the number of fields that every object has.
-/

namespace ObjectAbi

namespace Builtin

/-- The length of arrays, as an entry of a field list. -/
def arrayLengthEntry : FieldEntry := ⟨arrayLength, arrayLengthDecl⟩

def objectView : ClassView := ⟨object, objectDecl, [], []⟩

def arrayView : ClassView := ⟨array, arrayDecl, [arrayLengthEntry], []⟩

end Builtin

open Builtin Layout

namespace ClassTable

variable {t : ClassTable} {fields : List FieldEntry} {methods : List MethodEntry}

-- a table that a program can reach is that of the built-in classes with further members.
theorem Reached.exists_gains (h : t.Reached) :
    ∃ fields methods, Builtin.table.Gains t fields methods := by
  obtain ⟨ds, hrun⟩ := h
  obtain ⟨fields, methods, hgains, -⟩ := gains_of_declareAll hrun
  exact ⟨fields, methods, hgains⟩

section gains

variable (h : Builtin.table.Gains t fields methods)

include h

theorem Gains.superclass_object : t.superclass object = .ok none := h.superclass (by decide)

theorem Gains.string_extends_object : t.Extends string object := h.superclass (by decide)

theorem Gains.array_extends_object : t.Extends array object := h.superclass (by decide)

theorem Gains.view_object : t.view object = .ok (objectView.gain fields methods) := h.view rfl

theorem Gains.view_array : t.view array = .ok (arrayView.gain fields methods) := h.view rfl

-- the ways up from the root and from arrays end, whatever the rest of the table is like.
theorem Gains.complete_object : (t.lineage object).Complete := by
  have hd : (objectView.gain fields methods).decl.superclass? = none := rfl
  rw [lineage, lineageWithin, h.view_object]
  simp only [hd]
  trivial

theorem Gains.complete_array (ht : t.Consistent) : (t.lineage array).Complete := by
  have hobject : (objectView.gain fields methods).decl.superclass? = none := rfl
  have harray : (arrayView.gain fields methods).decl.superclass? = some object := rfl
  obtain ⟨n, hn⟩ := Nat.exists_eq_add_of_le' ht.builtins
  rw [lineage, hn, lineageWithin, h.view_array]
  simp only [harray]
  rw [lineageWithin, h.view_object]
  simp only [hobject]
  trivial

-- every object has the fields that the root has gained.
theorem Gains.fromRoot_object :
    FromRoot t (fieldsOver .perObject) object
      ((objectView.gain fields methods).fieldsOf .perObject) :=
  .root h.view_object h.superclass_object

-- every array has these fields, then the length, then the fields that arrays have gained.
theorem Gains.fromRoot_array :
    FromRoot t (fieldsOver .perObject) array
      ((objectView.gain fields methods).fieldsOf .perObject ++ arrayLengthEntry ::
        (ownedBy FieldDecl.container array fields).filter fun f ↦ f.decl.kind = .perObject) :=
  .heir h.view_array h.array_extends_object h.fromRoot_object

variable (ht : t.Consistent)

include ht

-- the root does not list the length, which belongs to arrays.
theorem Gains.arrayLength_not_mem :
    arrayLength ∉ ((objectView.gain fields methods).fieldsOf .perObject).map (·.id) := by
  intro hmem
  obtain ⟨f, hf, hid⟩ := List.mem_map.mp hmem
  obtain ⟨hdecl, hcontainer⟩ :=
    (ht.mem_fields_of_view_iff h.view_object).mp (List.mem_of_mem_filter hf)
  rw [hid, h.fieldDecl (f := arrayLength) rfl] at hdecl
  rw [← Except.ok.inj hdecl] at hcontainer
  exact absurd hcontainer (by decide)

-- the length has another number than each field of the root, so one is left for it.
theorem Gains.length_object_lt :
    ((objectView.gain fields methods).fieldsOf .perObject).length < Ident.capacity := by
  have hincreasing := ht.increasing_fields_of_view h.view_object
  have hnodup : (((objectView.gain fields methods).fieldsOf .perObject).map (·.id)).Nodup := by
    refine List.pairwise_map.mpr ((hincreasing.filter _).imp fun hlt heq ↦ ?_)
    rw [heq] at hlt
    exact Nat.lt_irrefl _ hlt
  have hall : (arrayLengthEntry ::
      (objectView.gain fields methods).fieldsOf .perObject).length ≤ t.fields.size := by
    refine Arena.length_le_of_nodup (List.nodup_cons.mpr ⟨h.arrayLength_not_mem ht, hnodup⟩)
      (List.forall_mem_cons.mpr ⟨?_, ?_⟩)
    · exact h.fieldDecl rfl
    · exact fun f hf ↦
        ((ht.mem_fields_of_view_iff h.view_object).mp (List.mem_of_mem_filter hf)).1
  exact Nat.lt_of_lt_of_le hall t.fields.size_le

end gains

end ClassTable

namespace Layout

/-- On every table that a program can reach the root is above strings and arrays and below no class,
and arrays have their length as a field of integer type. The position of the length is just behind
the fields that every object has, so reading it never fails, whatever the layouts were asked before
and whichever other classes inherit from themselves. -/
theorem builtin_classes_survive {t : ClassTable} (hreached : t.Reached)
    (before before' : List Query) :
    t.superclass object = .ok none ∧
    t.superclass string = .ok (some object) ∧
    t.superclass array = .ok (some object) ∧
    (∃ d, t.fieldDecl arrayLength = .ok d ∧ d.name = "length" ∧ d.ty = .int ∧ ¬ d.isStatic ∧
      d.container = array) ∧
    ∃ (fields : List FieldEntry) (i : UInt32),
      answerAfter t before (.fields .perObject object) = .ok (.fields fields) ∧
      answerAfter t before' (.fieldIndex array arrayLength) = .ok (.fieldIndex i) ∧
      i.toNat = fields.length := by
  obtain ⟨fields, methods, hgains⟩ := hreached.exists_gains
  have ht := hreached.consistent
  have hcapacity := hgains.length_object_lt ht
  have hskipped : ∀ f ∈ (objectView.gain fields methods).fieldsOf .perObject,
      ¬ decide (f.id = arrayLength) := by
    intro f hf hid
    exact hgains.arrayLength_not_mem ht (List.mem_map.mpr ⟨f, hf, of_decide_eq_true hid⟩)
  have hindex : fieldIndex? ((objectView.gain fields methods).fieldsOf .perObject ++
      arrayLengthEntry :: (ownedBy FieldDecl.container array fields).filter
        fun f ↦ f.decl.kind = .perObject) arrayLength =
      some (.ofNat ((objectView.gain fields methods).fieldsOf .perObject).length) :=
    position32?_append_cons hskipped (by decide) hcapacity
  refine ⟨hgains.superclass_object, hgains.string_extends_object, hgains.array_extends_object,
    ⟨arrayLengthDecl, hgains.fieldDecl rfl, rfl, rfl, by decide, rfl⟩, _, _,
    answerAfter_fields hgains.complete_object hgains.fromRoot_object before,
    answerAfter_fieldIndex (hgains.complete_array ht) hgains.fromRoot_array hindex before', ?_⟩
  exact UInt32.toNat_ofNat_of_lt' hcapacity

/-! ## A program that takes over the names -/

namespace Takeover

def newArray : ClassId := ⟨3⟩
def loop : ClassId := ⟨4⟩

/-- A second class of the name of arrays, a class that inherits from itself under the name of the
root, and new fields of the root and of arrays. -/
def table : ClassTable := .ofDeclarations
  [.newClass arrayName {} none [],
    .newClass objectName {} (some (.ofClass loop)) [],
    .field array "tail" .long {},
    .field object "lock" .int {},
    .field newArray "length" .long {},
    .field object "count" .int (.ofList [.static]),
    .field loop "self" (.ofClass loop) {},
    .field object "mark" .boolean {},
    .method array "copy" {} [] (.ofClass array)]

-- the class that now has the name of the root has no layout at all
theorem length_follows_new_fields_of_root :
    table.classNamed? objectName = some loop ∧
      answerAfter table [] (.fields .perObject loop) = .error .cyclicInheritance ∧
      ∃ i, answerAfter table [.slots array, .fields .perObject loop]
        (.fieldIndex array arrayLength) = .ok (.fieldIndex i) ∧ i.toNat = 2 := by
  obtain ⟨-, -, -, -, fields, i, hfields, hindex, hlength⟩ :=
    builtin_classes_survive (ClassTable.reached_ofDeclarations _ : table.Reached) []
      [.slots array, .fields .perObject loop]
  have hlist : answerAfter table [] (.fields .perObject object) =
      .ok (.fields [⟨⟨2⟩, "lock", object, .int, {}⟩, ⟨⟨6⟩, "mark", object, .boolean, {}⟩]) := by
    decide +kernel
  cases hfields.symm.trans hlist
  exact ⟨by decide +kernel, by decide +kernel, i, hindex, hlength⟩

end Takeover

end Layout

end ObjectAbi
