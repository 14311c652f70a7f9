import ObjectAbi.Proofs.ClassTable.Hierarchy
import ObjectAbi.Proofs.ClassTable.KnownTypes

/-!
# How a table grows

Declaring adds members to a table and lists each of them last in its container. All that was
declared before stays as it is, except for these lists. So a class that gains no member is seen as
before, and a class that does is seen with the new members after its own.
-/

namespace ObjectAbi

/-! ## Arenas -/

namespace Arena

variable {e : Entity} {α : Type} {a b : Arena e α} {i j : Ident e} {d x : α} {f : α → α}

theorem get_of_push_self (h : a.push d = .ok (i, b)) : b.get i = .ok d := by
  rw [get_eq_ok_iff, get?_of_push h, if_pos rfl]

-- a new declaration changes no earlier one.
theorem get_of_push (h : a.push d = .ok (i, b)) (hx : a.get j = .ok x) : b.get j = .ok x := by
  have hold := get_eq_ok_iff.mp hx
  have hne : j ≠ i := by
    intro heq
    have hlt := index_lt_of_get? hold
    rw [heq, index_of_push h] at hlt
    exact Nat.lt_irrefl _ hlt
  rw [get_eq_ok_iff, get?_of_push h, if_neg hne, hold]

theorem get_of_update (h : a.update i f = .ok b) (hx : a.get j = .ok x) :
    b.get j = .ok (if j = i then f x else x) := by
  rw [get_eq_ok_iff, get?_of_update h, get_eq_ok_iff.mp hx]
  by_cases hj : j = i
  · rw [if_pos hj, if_pos hj]
    rfl
  · rw [if_neg hj, if_neg hj]

end Arena

/-! ## New members -/

/-- Those of the members that name the class as their container. -/
def ownedBy {e : Entity} {α : Type} (container : α → ClassId) (c : ClassId)
    (members : List (Entry e α)) : List (Entry e α) :=
  members.filter fun x ↦ container x.decl = c

/-- The class with its own among the new members listed last. -/
def ClassDecl.gain (d : ClassDecl) (c : ClassId) (fields : List FieldEntry)
    (methods : List MethodEntry) : ClassDecl :=
  { d with
    fields := d.fields ++ (ownedBy FieldDecl.container c fields).map (·.id)
    methods := d.methods ++ (ownedBy MethodDecl.container c methods).map (·.id) }

/-- The class and its members, with its own among the new members after them. -/
def ClassView.gain (v : ClassView) (fields : List FieldEntry) (methods : List MethodEntry) :
    ClassView where
  id := v.id
  decl := v.decl.gain v.id fields methods
  fields := v.fields ++ ownedBy FieldDecl.container v.id fields
  methods := v.methods ++ ownedBy MethodDecl.container v.id methods

-- a class that no new member names as its container is seen as before.
theorem ClassView.gain_eq_self {v : ClassView} {fields : List FieldEntry}
    {methods : List MethodEntry} (hfields : ∀ f ∈ fields, f.decl.container ≠ v.id)
    (hmethods : ∀ m ∈ methods, m.decl.container ≠ v.id) : v.gain fields methods = v := by
  have hf : ownedBy FieldDecl.container v.id fields = [] :=
    List.filter_eq_nil_iff.mpr fun f hf ↦ by simpa using hfields f hf
  have hm : ownedBy MethodDecl.container v.id methods = [] :=
    List.filter_eq_nil_iff.mpr fun m hm ↦ by simpa using hmethods m hm
  simp [gain, ClassDecl.gain, hf, hm]

theorem ClassDecl.gain_nil (d : ClassDecl) (c : ClassId) : d.gain c [] [] = d := by
  simp [gain, ownedBy]

namespace Declaration

/-- The class that the declaration adds a member to. -/
def container? : Declaration → Option ClassId
  | newClass _ _ _ _ => none
  | field container _ _ _ | method container _ _ _ _ | constructor container _ _ => some container

/-- The field that is declared, under the identifier that it receives. -/
def newFields : Declaration → DeclaredId → List FieldEntry
  | field container name ty modifiers, .field f => [⟨f, name, container, ty, modifiers⟩]
  | _, _ => []

/-- The procedure that is declared, under the identifier that it receives. -/
def newMethods : Declaration → DeclaredId → List MethodEntry
  | method container name modifiers formals result, .method m =>
    [⟨m, name, container, modifiers, .method, formals, result⟩]
  | constructor container modifiers formals, .method m =>
    [⟨m, .ofConstructor container modifiers formals⟩]
  | _, _ => []

variable {d : Declaration} {id : DeclaredId}

theorem container?_of_mem_newFields {f : FieldEntry} (h : f ∈ d.newFields id) :
    d.container? = some f.decl.container := by
  cases d <;> cases id <;> simp_all [newFields, container?]

theorem container?_of_mem_newMethods {m : MethodEntry} (h : m ∈ d.newMethods id) :
    d.container? = some m.decl.container := by
  cases d <;> cases id <;> simp_all [newMethods, container?, MethodDecl.ofConstructor]

theorem ownedBy_newFields {c : ClassId} (hc : d.container? = some c) :
    ownedBy FieldDecl.container c (d.newFields id) = d.newFields id := by
  refine List.filter_eq_self.mpr fun f hf ↦ ?_
  simpa using (Option.some.inj ((container?_of_mem_newFields hf).symm.trans hc))

theorem ownedBy_newMethods {c : ClassId} (hc : d.container? = some c) :
    ownedBy MethodDecl.container c (d.newMethods id) = d.newMethods id := by
  refine List.filter_eq_self.mpr fun m hm ↦ ?_
  simpa using (Option.some.inj ((container?_of_mem_newMethods hm).symm.trans hc))

end Declaration

namespace ClassTable

variable {t t' : ClassTable} {c : ClassId} {v : ClassView} {fields : List FieldEntry}
  {methods : List MethodEntry}

/-- The second table knows all that the first one knows, and the new members besides, each of them
listed last in its container. -/
structure Gains (t t' : ClassTable) (fields : List FieldEntry) (methods : List MethodEntry) :
    Prop where
  size_le : t.classes.size ≤ t'.classes.size
  classDecl : ∀ {c d}, t.classDecl c = .ok d → t'.classDecl c = .ok (d.gain c fields methods)
  fieldDecl : ∀ {f d}, t.fieldDecl f = .ok d → t'.fieldDecl f = .ok d
  methodDecl : ∀ {m d}, t.methodDecl m = .ok d → t'.methodDecl m = .ok d
  newField : ∀ f ∈ fields, t'.fieldDecl f.id = .ok f.decl
  newMethod : ∀ m ∈ methods, t'.methodDecl m.id = .ok m.decl

theorem gains_of_addClass {name : String} {modifiers : Modifiers} {superclass : Option Ty}
    {typeParams : List String} {new : ClassId}
    (h : t.addClass name modifiers superclass typeParams = .ok (new, t')) : t.Gains t' [] [] := by
  obtain ⟨classes, hpush, rfl⟩ := addClass_eq_ok_iff.mp h
  refine ⟨?_, fun {c d} hd ↦ ?_, id, id, by simp, by simp⟩
  · exact (Nat.le_succ _).trans_eq (Arena.size_of_push hpush).symm
  · rw [d.gain_nil]
    exact Arena.get_of_push hpush hd

theorem gains_of_addField {decl : FieldDecl} {f : FieldId} (h : t.addField decl = .ok (f, t')) :
    t.Gains t' [⟨f, decl⟩] [] := by
  obtain ⟨fields, classes, hpush, hupdate, rfl⟩ := addField_eq_ok_iff.mp h
  refine ⟨(Arena.size_of_update hupdate).ge, fun {c d} hd ↦ ?_, Arena.get_of_push hpush, id, ?_,
    by simp⟩
  · refine (Arena.get_of_update hupdate hd).trans (congrArg Except.ok ?_)
    by_cases hc : c = decl.container <;> simp [ClassDecl.gain, ownedBy, hc, eq_comm]
  · intro g hg
    rw [List.mem_singleton.mp hg]
    exact Arena.get_of_push_self hpush

theorem gains_of_addMethod {decl : MethodDecl} {m : MethodId}
    (h : t.addMethod decl = .ok (m, t')) : t.Gains t' [] [⟨m, decl⟩] := by
  obtain ⟨methods, classes, hpush, hupdate, rfl⟩ := addMethod_eq_ok_iff.mp h
  refine ⟨(Arena.size_of_update hupdate).ge, fun {c d} hd ↦ ?_, id, Arena.get_of_push hpush,
    by simp, ?_⟩
  · refine (Arena.get_of_update hupdate hd).trans (congrArg Except.ok ?_)
    by_cases hc : c = decl.container <;> simp [ClassDecl.gain, ownedBy, hc, eq_comm]
  · intro n hn
    rw [List.mem_singleton.mp hn]
    exact Arena.get_of_push_self hpush

theorem gains_of_declare {d : Declaration} {id : DeclaredId} (h : t.declare d = .ok (id, t')) :
    t.Gains t' (d.newFields id) (d.newMethods id) := by
  obtain ⟨name, modifiers, superclass, typeParams, c, rfl, rfl, hadd⟩ | ⟨decl, f, rfl, rfl, hadd⟩ |
    ⟨decl, m, hdecl, rfl, hadd⟩ := declare_cases h
  · exact gains_of_addClass hadd
  · exact gains_of_addField hadd
  · obtain ⟨rfl, hkind⟩ | ⟨container, modifiers, formals, rfl, rfl⟩ := hdecl
    · change t.Gains t' [] [⟨m, decl.name, decl.container, decl.modifiers, .method, decl.formals,
        decl.result⟩]
      rw [← hkind]
      exact gains_of_addMethod hadd
    · exact gains_of_addMethod hadd

section declare

variable {d : Declaration} {id : DeclaredId} (h : t.declare d = .ok (id, t'))

include h

-- a member can be added to a declared class only, and adding it declares no class.
theorem container_of_declare (hc : d.container? = some c) :
    t.Declared c ∧ t'.classes.size = t.classes.size := by
  obtain ⟨name, modifiers, superclass, typeParams, _, rfl, -, -⟩ | ⟨decl, f, rfl, -, hadd⟩ |
    ⟨decl, m, hdecl, -, hadd⟩ := declare_cases h
  · cases hc
  · obtain ⟨fields, classes, -, hupdate, rfl⟩ := addField_eq_ok_iff.mp hadd
    cases hc
    exact ⟨(Arena.update_eq_ok_iff.mp hupdate).1, Arena.size_of_update hupdate⟩
  · obtain ⟨methods, classes, -, hupdate, rfl⟩ := addMethod_eq_ok_iff.mp hadd
    obtain ⟨rfl, -⟩ | ⟨container, modifiers, formals, rfl, rfl⟩ := hdecl <;> cases hc <;>
      exact ⟨(Arena.update_eq_ok_iff.mp hupdate).1, Arena.size_of_update hupdate⟩

-- a new member has the next identifier of its kind.
theorem index_of_newField {f : FieldEntry} (hf : f ∈ d.newFields id) :
    f.id.index = t.fields.size := by
  obtain ⟨name, modifiers, superclass, typeParams, _, rfl, -, -⟩ | ⟨decl, g, rfl, rfl, hadd⟩ |
    ⟨decl, m, hdecl, rfl, hadd⟩ := declare_cases h
  · cases hf
  · obtain ⟨fields, classes, hpush, -, -⟩ := addField_eq_ok_iff.mp hadd
    rw [List.mem_singleton.mp hf]
    exact Arena.index_of_push hpush
  · obtain ⟨rfl, -⟩ | ⟨container, modifiers, formals, rfl, -⟩ := hdecl <;> cases hf

theorem index_of_newMethod {m : MethodEntry} (hm : m ∈ d.newMethods id) :
    m.id.index = t.methods.size := by
  obtain ⟨name, modifiers, superclass, typeParams, _, rfl, -, -⟩ | ⟨decl, g, rfl, rfl, hadd⟩ |
    ⟨decl, n, hdecl, rfl, hadd⟩ := declare_cases h
  · cases hm
  · cases hm
  · obtain ⟨methods, classes, hpush, -, -⟩ := addMethod_eq_ok_iff.mp hadd
    obtain ⟨rfl, -⟩ | ⟨container, modifiers, formals, rfl, -⟩ := hdecl <;>
      rw [List.mem_singleton.mp hm] <;> exact Arena.index_of_push hpush

end declare

namespace Gains

variable (h : t.Gains t' fields methods)

include h

-- no class loses its place in the hierarchy.
theorem superclass (hc : t.Declared c) : t'.superclass c = t.superclass c := by
  obtain ⟨d, hd⟩ := declared_iff.mp hc
  rw [ClassTable.superclass, ClassTable.superclass, hd, h.classDecl hd]
  rfl

theorem className (hc : t.Declared c) : t'.className c = t.className c := by
  obtain ⟨d, hd⟩ := declared_iff.mp hc
  rw [ClassTable.className, ClassTable.className, hd, h.classDecl hd]
  rfl

-- where no class is gained, one that is not declared is missing as before.
theorem className_eq (hsize : t'.classes.size = t.classes.size) (c : ClassId) :
    t'.className c = t.className c := by
  by_cases hc : t.Declared c
  · exact h.className hc
  · have hmissing : ∀ {t' : ClassTable}, t'.classes.size = t.classes.size →
        t'.classDecl c = .error (.outOfRange t.classes.size c.index) := by
      intro t' hsize
      exact Arena.get_eq_error_iff.mpr ⟨hsize ▸ Nat.le_of_not_lt hc, by rw [← hsize]⟩
    rw [ClassTable.className, ClassTable.className, hmissing hsize, hmissing rfl]

theorem fieldDecl_eq {f : FieldId} (hf : f.index < t.fields.size) :
    t'.fieldDecl f = t.fieldDecl f := by
  obtain ⟨d, hd⟩ := Arena.exists_get hf
  exact (h.fieldDecl hd).trans hd.symm

theorem view (hv : t.view c = .ok v) : t'.view c = .ok (v.gain fields methods) := by
  obtain ⟨rfl, hdecl, ⟨hfields, hfieldDecl⟩, hmethods, hmethodDecl⟩ := view_eq_ok_iff.mp hv
  refine view_eq_ok_iff.mpr ⟨rfl, h.classDecl hdecl, ⟨?_, fun f hf ↦ ?_⟩, ?_, fun m hm ↦ ?_⟩
  · simp only [ClassView.gain, ClassDecl.gain, List.map_append, hfields]
  · obtain hold | hnew := List.mem_append.mp hf
    · exact h.fieldDecl (hfieldDecl f hold)
    · exact h.newField f (List.mem_of_mem_filter hnew)
  · simp only [ClassView.gain, ClassDecl.gain, List.map_append, hmethods]
  · obtain hold | hnew := List.mem_append.mp hm
    · exact h.methodDecl (hmethodDecl m hold)
    · exact h.newMethod m (List.mem_of_mem_filter hnew)

end Gains

-- without new members every class is known as before.
theorem Gains.classDecl_eq (h : t.Gains t' [] []) (hc : t.Declared c) :
    t'.classDecl c = t.classDecl c := by
  obtain ⟨d, hd⟩ := declared_iff.mp hc
  rw [h.classDecl hd, hd, d.gain_nil]

end ClassTable

end ObjectAbi
