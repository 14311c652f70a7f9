import Mathlib.Data.List.Nodup
import ObjectAbi.Proofs.ClassTable.Members

/-!
# What a table records

A table records things twice over. A member names its container and is listed by it; the name of a
class stands in its declaration and in an index by name; and what makes a procedure a constructor
shows in its kind, its modifiers and its result. Each declaration writes all of these together. So
on every table that a program can reach, each member is listed once and by its container only, a
name leads to the class that was last declared under it, and a constructor has a receiver.
-/

namespace ObjectAbi

/-! ## The index of names -/

/-- The class has the name. -/
def Named (classes : Arena .classDecl ClassDecl) (c : ClassId) (name : String) : Prop :=
  ∃ d, classes.get? c = some d ∧ d.name = name

/-- The class has the name, and no class that was declared later has it. -/
def LastNamed (classes : Arena .classDecl ClassDecl) (c : ClassId) (name : String) : Prop :=
  Named classes c name ∧ ∀ c', Named classes c' name → c'.index ≤ c.index

/-- The index leads from each name to the class last declared under it, and knows every name. -/
structure NameIndexed (classes : Arena .classDecl ClassDecl)
    (names : Std.TreeMap String ClassId) : Prop where
  lastNamed : ∀ {name c}, names[name]? = some c → LastNamed classes c name
  unnamed : ∀ {name}, names[name]? = none → ∀ c, ¬ Named classes c name

section named

variable {classes classes' : Arena .classDecl ClassDecl} {c c' : ClassId} {d : ClassDecl}
  {f : ClassDecl → ClassDecl} {name : String}

theorem named_of_push (hpush : classes.push d = .ok (c, classes')) :
    Named classes' c' name ↔ if c' = c then d.name = name else Named classes c' name := by
  simp only [Named, Arena.get?_of_push hpush]
  by_cases hc : c' = c <;> simp [hc]

-- a member that is listed anew does not change the name of its class.
theorem named_of_update (hupdate : classes.update c f = .ok classes')
    (hsame : ∀ d, (f d).name = d.name) : Named classes' c' name ↔ Named classes c' name := by
  simp only [Named, Arena.get?_of_update hupdate]
  by_cases hc : c' = c <;> simp [hc, hsame]

theorem Named.index_lt (h : Named classes c name) : c.index < classes.size := by
  obtain ⟨d, hd, -⟩ := h
  exact Arena.index_lt_of_get? hd

theorem LastNamed.unique (h : LastNamed classes c name) (h' : LastNamed classes c' name) :
    c = c' :=
  Ident.index_inj.mp (Nat.le_antisymm (h'.2 c h.1) (h.2 c' h'.1))

-- who has a name that the new class has not stays the same.
theorem named_of_push_other (hpush : classes.push d = .ok (c, classes')) (hname : d.name ≠ name) :
    Named classes' c' name ↔ Named classes c' name := by
  rw [named_of_push hpush]
  by_cases hc : c' = c
  · have hnew := Arena.index_of_push hpush
    have hfresh : ¬ Named classes c' name := by
      intro h
      have hlt := h.index_lt
      rw [hc, hnew] at hlt
      exact Nat.lt_irrefl _ hlt
    simp [hc ▸ hfresh, hc, hname]
  · rw [if_neg hc]

theorem lastNamed_of_push_self (hpush : classes.push d = .ok (c, classes')) :
    LastNamed classes' c d.name := by
  have hnew := Arena.index_of_push hpush
  have hsize := Arena.size_of_push hpush
  have hnamed : Named classes' c d.name := (named_of_push hpush).mpr (by rw [if_pos rfl])
  refine ⟨hnamed, fun c' hc' ↦ ?_⟩
  have hlt := hc'.index_lt
  omega

theorem lastNamed_of_push_other (hpush : classes.push d = .ok (c, classes'))
    (hname : d.name ≠ name) : LastNamed classes' c' name ↔ LastNamed classes c' name := by
  simp only [LastNamed, named_of_push_other hpush hname]

end named

namespace NameIndexed

variable {classes classes' : Arena .classDecl ClassDecl} {names : Std.TreeMap String ClassId}
  {c : ClassId} {d : ClassDecl} {f : ClassDecl → ClassDecl} {name : String}

theorem getElem?_eq_some_iff (h : NameIndexed classes names) :
    names[name]? = some c ↔ LastNamed classes c name := by
  refine ⟨h.lastNamed, fun hlast ↦ ?_⟩
  cases hfound : names[name]? with
  | none => exact absurd hlast.1 (h.unnamed hfound c)
  | some c' => rw [(h.lastNamed hfound).unique hlast]

theorem getElem?_eq_none_iff (h : NameIndexed classes names) :
    names[name]? = none ↔ ∀ c, ¬ Named classes c name := by
  refine ⟨h.unnamed, fun hnone ↦ ?_⟩
  cases hfound : names[name]? with
  | none => rfl
  | some c => exact absurd (h.lastNamed hfound).1 (hnone c)

theorem empty : NameIndexed ⟨#[], by decide⟩ ∅ := by
  have hnone : ∀ c name, ¬ Named ⟨#[], by decide⟩ c name := by
    intro c name h
    exact absurd h.index_lt (Nat.not_lt_zero _)
  exact ⟨fun h ↦ by simp at h, fun _ c ↦ hnone c _⟩

-- a new class takes its name over from every class that has it.
theorem push (h : NameIndexed classes names) (hpush : classes.push d = .ok (c, classes')) :
    NameIndexed classes' (names.insert d.name c) := by
  have hget : ∀ name, (names.insert d.name c)[name]? =
      if d.name = name then some c else names[name]? := by
    intro name
    simp [Std.TreeMap.getElem?_insert]
  refine ⟨?_, ?_⟩
  · intro name found hfound
    rw [hget] at hfound
    by_cases hname : d.name = name
    · rw [if_pos hname, Option.some.injEq] at hfound
      rw [← hname, ← hfound]
      exact lastNamed_of_push_self hpush
    · rw [if_neg hname] at hfound
      exact (lastNamed_of_push_other hpush hname).mpr (h.lastNamed hfound)
  · intro name hnone c'
    rw [hget] at hnone
    by_cases hname : d.name = name
    · rw [if_pos hname] at hnone
      cases hnone
    · rw [if_neg hname] at hnone
      rw [named_of_push_other hpush hname]
      exact h.unnamed hnone c'

theorem update (h : NameIndexed classes names) (hupdate : classes.update c f = .ok classes')
    (hsame : ∀ d, (f d).name = d.name) : NameIndexed classes' names := by
  refine ⟨fun hfound ↦ ?_, fun hnone c' ↦ ?_⟩
  · simp only [LastNamed, named_of_update hupdate hsame]
    exact h.lastNamed hfound
  · rw [named_of_update hupdate hsame]
    exact h.unnamed hnone c'

-- the built-in classes are declared one after the other, like any others.
theorem builtin : NameIndexed Builtin.table.classes Builtin.table.names := by
  have hobject : NameIndexed ⟨#[Builtin.objectDecl], by decide⟩ _ :=
    empty.push (d := Builtin.objectDecl) (c := Builtin.object) rfl
  have hstring : NameIndexed ⟨#[Builtin.objectDecl, Builtin.stringDecl], by decide⟩ _ :=
    hobject.push (d := Builtin.stringDecl) (c := Builtin.string) rfl
  exact hstring.push (d := Builtin.arrayDecl) (c := Builtin.array) rfl

end NameIndexed

/-! ## Constructors -/

/-- Every constructor is one as constructors are declared. -/
def ConstructorsFormed (methods : Arena .methodDecl MethodDecl) : Prop :=
  ∀ i m, methods.get? i = some m → m.kind = .constructor →
    ∃ container modifiers formals, m = .ofConstructor container modifiers formals

section constructors

variable {container : ClassId} {modifiers : Modifiers} {formals : List Ty}

theorem hasReceiver_ofConstructor :
    (MethodDecl.ofConstructor container modifiers formals).hasReceiver := by
  simp [MethodDecl.hasReceiver, MethodDecl.isStatic, MethodDecl.ofConstructor, Modifiers.isStatic,
    Modifiers.has_without_self]

theorem not_isVirtual_ofConstructor :
    ¬ (MethodDecl.ofConstructor container modifiers formals).isVirtual := by
  simp [MethodDecl.isVirtual, MethodDecl.ofConstructor]

end constructors

theorem ConstructorsFormed.push {methods methods' : Arena .methodDecl MethodDecl} {i : MethodId}
    {m : MethodDecl} (h : ConstructorsFormed methods) (hpush : methods.push m = .ok (i, methods'))
    (hm : m.kind = .constructor →
      ∃ container modifiers formals, m = .ofConstructor container modifiers formals) :
    ConstructorsFormed methods' := by
  intro j n hn hkind
  rw [Arena.get?_of_push hpush] at hn
  by_cases hj : j = i
  · rw [if_pos hj, Option.some.injEq] at hn
    subst hn
    exact hm hkind
  · rw [if_neg hj] at hn
    exact h j n hn hkind

/-! ## Members -/

/-- The class lists the member, once, and no other class lists it. -/
def ListedOnce {e : Entity} (classes : Arena .classDecl ClassDecl)
    (listed : ClassDecl → List (Ident e)) (i : Ident e) (c : ClassId) : Prop :=
  (∃ d, classes.get? c = some d ∧ (listed d).count i = 1) ∧
    ∀ c' d', classes.get? c' = some d' → c' ≠ c → i ∉ listed d'

/-- All members in the list are declared, and they stand in the order of declaration. -/
def ListsInOrder {e : Entity} {α : Type} (members : Arena e α) (l : List (Ident e)) : Prop :=
  (∀ i ∈ l, i.index < members.size) ∧ l.Pairwise fun i j ↦ i.index < j.index

namespace Indexed

variable {e : Entity} {α : Type} {classes : Arena .classDecl ClassDecl} {members : Arena e α}
  {container : α → ClassId} {listed : ClassDecl → List (Ident e)}

theorem listedOnce (h : Indexed classes members container listed) {i : Ident e}
    (hi : i.index < members.size) :
    ∃ m, members.get i = .ok m ∧ ListedOnce classes listed i (container m) := by
  obtain ⟨m, hm⟩ := Option.isSome_iff_exists.mp (Arena.get?_isSome.mpr hi)
  obtain ⟨d, hd⟩ := Option.isSome_iff_exists.mp (Arena.get?_isSome.mpr (h.container_lt hm))
  have hmem : i ∈ listed d := (h.mem_listed_iff hd i).mpr ⟨m, hm, rfl⟩
  have hother : ∀ c' d', classes.get? c' = some d' → c' ≠ container m → i ∉ listed d' := by
    intro c' d' hd' hne hi'
    obtain ⟨m', hm', hcontainer⟩ := (h.mem_listed_iff hd' i).mp hi'
    cases hm.symm.trans hm'
    exact hne hcontainer.symm
  exact ⟨m, Arena.get_eq_ok_iff.mpr hm,
    ⟨d, hd, List.count_eq_one_of_mem (h.nodup hd) hmem⟩, hother⟩

theorem listsInOrder (h : Indexed classes members container listed) {c : ClassId} {d : ClassDecl}
    (hd : classes.get? c = some d) : ListsInOrder members (listed d) :=
  ⟨fun _ hi ↦ h.index_lt hd hi, h.increasing hd⟩

end Indexed

/-! ## Tables that a program can reach -/

namespace ClassTable

variable {t t' : ClassTable}

/-- What a table records beside its members. -/
structure Recorded (t : ClassTable) : Prop where
  names : NameIndexed t.classes t.names
  constructors : ConstructorsFormed t.methods

theorem Recorded.declare {d : Declaration} {id : DeclaredId} (h : t.Recorded)
    (hd : t.declare d = .ok (id, t')) : t'.Recorded := by
  obtain ⟨name, modifiers, superclass, typeParams, c, -, -, hadd⟩ | ⟨decl, f, -, -, hadd⟩ |
    ⟨decl, m, hdecl, -, hadd⟩ := declare_cases hd
  · obtain ⟨classes, hpush, rfl⟩ := addClass_eq_ok_iff.mp hadd
    exact ⟨h.names.push hpush, h.constructors⟩
  · obtain ⟨fields, classes, -, hupdate, rfl⟩ := addField_eq_ok_iff.mp hadd
    exact ⟨h.names.update hupdate fun _ ↦ rfl, h.constructors⟩
  · obtain ⟨methods, classes, hpush, hupdate, rfl⟩ := addMethod_eq_ok_iff.mp hadd
    refine ⟨h.names.update hupdate fun _ ↦ rfl, h.constructors.push hpush fun hkind ↦ ?_⟩
    obtain ⟨-, hmethod⟩ | ⟨container, modifiers, formals, -, hdecl⟩ := hdecl
    · rw [hkind] at hmethod
      cases hmethod
    · exact ⟨container, modifiers, formals, hdecl⟩

theorem Reached.recorded (h : t.Reached) : t.Recorded := by
  obtain ⟨ds, hrun⟩ := h
  have hbuiltin : Builtin.table.Recorded :=
    ⟨.builtin, fun i m hm ↦ by simp [Builtin.table, Arena.get?] at hm⟩
  exact declareAll_preserves Recorded.declare hbuiltin hrun

/-- Each member is listed once, by its container and by no other class; each class lists declared
members in the order of declaration; each constructor has a receiver, is not virtual and yields no
value; and each name stands for the last class declared under it, if there is one. -/
theorem members_and_names_recorded_once (h : t.Reached) :
    (∀ f : FieldId, f.index < t.fields.size →
      ∃ d, t.fieldDecl f = .ok d ∧ ListedOnce t.classes ClassDecl.fields f d.container) ∧
    (∀ m : MethodId, m.index < t.methods.size →
      ∃ d, t.methodDecl m = .ok d ∧ ListedOnce t.classes ClassDecl.methods m d.container) ∧
    (∀ c d, t.classDecl c = .ok d →
      ListsInOrder t.fields d.fields ∧ ListsInOrder t.methods d.methods) ∧
    (∀ m d, t.methodDecl m = .ok d → d.kind = .constructor →
      d.hasReceiver ∧ ¬ d.isVirtual ∧ d.result = .void) ∧
    ∀ name, (∀ c, t.classNamed? name = some c ↔ LastNamed t.classes c name) ∧
      (t.classNamed? name = none ↔ ∀ c, ¬ Named t.classes c name) := by
  have hmembers := h.consistent
  have hrecorded := h.recorded
  have hlists : ∀ c d, t.classDecl c = .ok d →
      ListsInOrder t.fields d.fields ∧ ListsInOrder t.methods d.methods := by
    intro c d hd
    have hget := Arena.get_eq_ok_iff.mp hd
    exact ⟨hmembers.fields.listsInOrder hget, hmembers.methods.listsInOrder hget⟩
  have hconstructors : ∀ m d, t.methodDecl m = .ok d → d.kind = .constructor →
      d.hasReceiver ∧ ¬ d.isVirtual ∧ d.result = .void := by
    intro m d hd hkind
    obtain ⟨container, modifiers, formals, rfl⟩ :=
      hrecorded.constructors m d (Arena.get_eq_ok_iff.mp hd) hkind
    exact ⟨hasReceiver_ofConstructor, not_isVirtual_ofConstructor, rfl⟩
  exact ⟨fun f hf ↦ hmembers.fields.listedOnce hf, fun m hm ↦ hmembers.methods.listedOnce hm,
    hlists, hconstructors, fun name ↦
      ⟨fun c ↦ hrecorded.names.getElem?_eq_some_iff, hrecorded.names.getElem?_eq_none_iff⟩⟩

/-- A second class under the name of a built-in one, and members that are added to the built-in
classes afterwards. -/
def renamedString : ClassTable := .ofDeclarations
  [.newClass Builtin.stringName {} none [],
    .field Builtin.object "lock" .int {},
    .method Builtin.array "copy" {} [] (.ofClass Builtin.array),
    .constructor Builtin.string (.ofList [.static]) [.ofClass ⟨3⟩]]

-- the constructor was declared static
theorem string_name_stands_for_new_class :
    LastNamed renamedString.classes ⟨3⟩ Builtin.stringName ∧
      (∀ c, ¬ Named renamedString.classes c "String") ∧
      ListedOnce renamedString.classes ClassDecl.fields ⟨1⟩ Builtin.object ∧
      ListedOnce renamedString.classes ClassDecl.methods ⟨0⟩ Builtin.array ∧
      ∃ m, renamedString.methodDecl ⟨1⟩ = .ok m ∧ m.hasReceiver := by
  obtain ⟨hfields, hmethods, -, hconstructors, hnames⟩ :=
    members_and_names_recorded_once (reached_ofDeclarations _ : renamedString.Reached)
  have hlast := ((hnames Builtin.stringName).1 ⟨3⟩).mp (by decide +kernel)
  have hnone := (hnames "String").2.mp (by decide +kernel)
  obtain ⟨f, hf, hfield⟩ := hfields ⟨1⟩ (by decide +kernel)
  obtain ⟨m, hm, hmethod⟩ := hmethods ⟨0⟩ (by decide +kernel)
  have hconstructor := hconstructors ⟨1⟩ _ rfl rfl
  cases hf
  cases hm
  exact ⟨hlast, hnone, hfield, hmethod, _, rfl, hconstructor.1⟩

end ClassTable

end ObjectAbi
