import ObjectAbi.ClassTable.Declare
import ObjectAbi.Proofs.Outcome

/-!
# Members and their classes

Membership is recorded twice: a member names its container, and the container lists the member.
Every declaration writes both places, so on each table that a program can reach the two agree, the
lists stay in the order of declaration, and looking a class up together with its members never
meets an identifier that was not handed out.
-/

namespace ObjectAbi

theorem Arena.index_lt_of_get? {e : Entity} {α : Type} {a : Arena e α} {i : Ident e} {d : α}
    (h : a.get? i = some d) : i.index < a.size :=
  Arena.get?_isSome.mp (Option.isSome_iff_exists.mpr ⟨d, h⟩)

-- an identifier that was handed out can be looked up.
theorem Arena.exists_get {e : Entity} {α : Type} {a : Arena e α} {i : Ident e}
    (h : i.index < a.size) : ∃ d, a.get i = .ok d := by
  obtain ⟨d, hd⟩ := Option.isSome_iff_exists.mp (Arena.get?_isSome.mpr h)
  exact ⟨d, get_eq_ok_iff.mpr hd⟩

-- an entry that the arena knows is known by its identifier.
theorem Arena.entry_eq_of_id_eq {e : Entity} {α : Type} {a : Arena e α} {x y : Entry e α}
    (hx : a.get x.id = .ok x.decl) (hy : a.get y.id = .ok y.decl) (hid : x.id = y.id) : x = y := by
  have hdecl : x.decl = y.decl := by
    rw [hid] at hx
    exact Except.ok.inj (hx.symm.trans hy)
  cases x
  cases y
  cases hid
  cases hdecl
  rfl

-- what is claimed of every declaration is claimed of finitely many.
theorem Arena.forall_get_iff {e : Entity} {α : Type} {a : Arena e α} {p : Ident e → α → Prop} :
    (∀ i d, a.get i = .ok d → p i d) ↔
      ∀ n < a.size, ∀ d ∈ a.get? (.ofIndex n), p (.ofIndex n) d := by
  refine ⟨fun h n _ d hd ↦ h _ d (get_eq_ok_iff.mpr hd), fun h i d hd ↦ ?_⟩
  have hget := get_eq_ok_iff.mp hd
  have hindex := h i.index (index_lt_of_get? hget) d
  rw [Ident.ofIndex_index] at hindex
  exact hindex hget

namespace ClassTable

/-! ## Declared classes and reached tables -/

/-- The class has been declared. -/
def Declared (t : ClassTable) (c : ClassId) : Prop := c.index < t.classes.size

instance (t : ClassTable) (c : ClassId) : Decidable (t.Declared c) :=
  inferInstanceAs (Decidable (_ < _))

theorem declared_iff {t : ClassTable} {c : ClassId} :
    t.Declared c ↔ ∃ d, t.classDecl c = .ok d := by
  simp only [classDecl, Arena.get_eq_ok_iff, ← Option.isSome_iff_exists, Arena.get?_isSome]
  rfl

theorem forall_declared_iff {t : ClassTable} {p : ClassId → Prop} :
    (∀ c, t.Declared c → p c) ↔ ∀ n < t.classes.size, p (.ofIndex n) := by
  refine ⟨?_, ?_⟩
  · intro h n hn
    apply h
    rw [Declared, Ident.index_ofIndex (Nat.lt_of_lt_of_le hn t.classes.size_le)]
    exact hn
  · intro h c hc
    rw [← Ident.ofIndex_index c]
    exact h c.index hc

theorem forall_classDecl_iff {t : ClassTable} {p : ClassId → ClassDecl → Prop} :
    (∀ c d, t.classDecl c = .ok d → p c d) ↔
      ∀ n < t.classes.size, ∀ d ∈ t.classes.get? (.ofIndex n), p (.ofIndex n) d :=
  Arena.forall_get_iff

theorem forall_methodDecl_iff {t : ClassTable} {p : MethodId → MethodDecl → Prop} :
    (∀ m d, t.methodDecl m = .ok d → p m d) ↔
      ∀ n < t.methods.size, ∀ d ∈ t.methods.get? (.ofIndex n), p (.ofIndex n) d :=
  Arena.forall_get_iff

/-- Some sequence of declarations leads from the built-in classes to the table. -/
def Reached (t : ClassTable) : Prop := ∃ ds, Builtin.table.declareAll ds = .ok t

/-- The table that declarations lead to, if all of them can be carried out. -/
def ofDeclarations (ds : List Declaration) : ClassTable :=
  match Builtin.table.declareAll ds with
  | .ok t => t
  | .error _ => Builtin.table

theorem reached_ofDeclarations (ds : List Declaration) : (ofDeclarations ds).Reached := by
  unfold ofDeclarations
  cases hrun : Builtin.table.declareAll ds with
  | error fault => exact ⟨[], rfl⟩
  | ok t => exact ⟨ds, hrun⟩

theorem declareAll_ofDeclarations {ds : List Declaration}
    (h : (Builtin.table.declareAll ds).isOk) :
    Builtin.table.declareAll ds = .ok (ofDeclarations ds) := by
  unfold ofDeclarations
  cases hrun : Builtin.table.declareAll ds with
  | error fault =>
    rw [hrun] at h
    cases h
  | ok t => rfl

-- what every declaration preserves holds after a run of them if it held before.
theorem declareAll_preserves {motive : ClassTable → Prop}
    (hstep : ∀ {t d id t'}, motive t → t.declare d = .ok (id, t') → motive t') {t t' : ClassTable}
    {ds : List Declaration} (ht : motive t) (hrun : t.declareAll ds = .ok t') : motive t' := by
  induction ds generalizing t with
  | nil => exact Except.ok.inj hrun ▸ ht
  | cons d ds ih =>
    rcases bind_eq_ok_iff.mp hrun with ⟨⟨id, next⟩, hnext, hrest⟩
    exact ih (hstep ht hnext) hrest

theorem declareAll_append {t next t' : ClassTable} {ds ds' : List Declaration}
    (h : t.declareAll ds = .ok next) (h' : next.declareAll ds' = .ok t') :
    t.declareAll (ds ++ ds') = .ok t' := by
  induction ds generalizing t with
  | nil =>
    cases h
    exact h'
  | cons d ds ih =>
    rcases bind_eq_ok_iff.mp h with ⟨step, hstep, hrest⟩
    exact bind_eq_ok_iff.mpr ⟨step, hstep, ih hrest⟩

theorem Reached.declareAll {t t' : ClassTable} {ds : List Declaration} (h : t.Reached)
    (hrun : t.declareAll ds = .ok t') : t'.Reached := by
  rcases h with ⟨before, hbefore⟩
  exact ⟨before ++ ds, declareAll_append hbefore hrun⟩

end ClassTable

/-! ## An arena of members and the lists that name them -/

/-- The members in an arena and the lists of the classes say the same. -/
structure Indexed {e : Entity} {α : Type} (classes : Arena .classDecl ClassDecl)
    (members : Arena e α) (container : α → ClassId) (listed : ClassDecl → List (Ident e)) :
    Prop where
  /-- A class lists just the members that name it as their container. -/
  mem_listed_iff : ∀ {c d}, classes.get? c = some d →
    ∀ i, i ∈ listed d ↔ ∃ m, members.get? i = some m ∧ container m = c
  /-- The lists are in the order of declaration. -/
  increasing : ∀ {c d}, classes.get? c = some d →
    (listed d).Pairwise fun i j ↦ i.index < j.index
  container_lt : ∀ {i m}, members.get? i = some m → (container m).index < classes.size

namespace Indexed

variable {e : Entity} {α : Type} {classes classes' : Arena .classDecl ClassDecl}
  {members members' : Arena e α} {container : α → ClassId} {listed : ClassDecl → List (Ident e)}

theorem index_lt (h : Indexed classes members container listed) {c : ClassId} {d : ClassDecl}
    (hd : classes.get? c = some d) {i : Ident e} (hi : i ∈ listed d) :
    i.index < members.size := by
  rcases (h.mem_listed_iff hd i).mp hi with ⟨m, hm, -⟩
  exact Arena.index_lt_of_get? hm

theorem nodup (h : Indexed classes members container listed) {c : ClassId} {d : ClassDecl}
    (hd : classes.get? c = some d) : (listed d).Nodup := by
  refine (h.increasing hd).imp ?_
  intro i j hij heq
  rw [heq] at hij
  exact Nat.lt_irrefl _ hij

-- a new class has no members yet.
theorem push_class (h : Indexed classes members container listed) {c : ClassId} {d : ClassDecl}
    (hpush : classes.push d = .ok (c, classes')) (hempty : listed d = []) :
    Indexed classes' members container listed := by
  have hsize := Arena.size_of_push hpush
  have hnew := Arena.index_of_push hpush
  refine ⟨?_, ?_, ?_⟩
  · intro c' d' hd' i
    rw [Arena.get?_of_push hpush] at hd'
    by_cases hc : c' = c
    · have heq : d = d' := by simpa [hc] using hd'
      subst heq
      simp only [hempty, List.not_mem_nil, false_iff]
      intro h
      rcases h with ⟨m, hm, rfl⟩
      have hlt := h.container_lt hm
      rw [hc, hnew] at hlt
      exact Nat.lt_irrefl _ hlt
    · rw [if_neg hc] at hd'
      exact h.mem_listed_iff hd' i
  · intro c' d' hd'
    rw [Arena.get?_of_push hpush] at hd'
    by_cases hc : c' = c
    · have heq : d = d' := by simpa [hc] using hd'
      subst heq
      rw [hempty]
      exact .nil
    · rw [if_neg hc] at hd'
      exact h.increasing hd'
  · intro i m hm
    have hlt := h.container_lt hm
    omega

-- a new member is listed last in its container, and nowhere else.
theorem push_member (h : Indexed classes members container listed) {i : Ident e} {m : α}
    {f : ClassDecl → ClassDecl} (hpush : members.push m = .ok (i, members'))
    (hupdate : classes.update (container m) f = .ok classes')
    (hlast : ∀ d, listed (f d) = listed d ++ [i]) :
    Indexed classes' members' container listed := by
  have hnew := Arena.index_of_push hpush
  have hbefore : ∀ {c d}, classes.get? c = some d → ∀ j ∈ listed d, j.index < i.index :=
    fun hd j hj ↦ hnew ▸ h.index_lt hd hj
  have hfresh : ∀ {c d}, classes.get? c = some d → i ∉ listed d :=
    fun hd hi ↦ Nat.lt_irrefl _ (hbefore hd i hi)
  -- what a list holds changes for the new member only, and only in its container
  have hmem : ∀ {c d}, classes.get? c = some d → ∀ j,
      (∃ m', members'.get? j = some m' ∧ container m' = c) ↔
        j ∈ listed d ∨ j = i ∧ container m = c := by
    intro c d hd j
    rw [Arena.get?_of_push hpush, h.mem_listed_iff hd]
    -- an old member is listed as before, and the new one was in no list
    by_cases hj : j = i
    · have hnone := (h.mem_listed_iff hd i).not.mp (hfresh hd)
      simp [hj, hnone]
    · simp [hj]
  refine ⟨?_, ?_, ?_⟩
  · intro c d' hd' j
    rw [Arena.get?_of_update hupdate] at hd'
    by_cases hc : c = container m
    · rw [if_pos hc] at hd'
      rcases Option.map_eq_some_iff.mp hd' with ⟨d, hd, rfl⟩
      rw [hmem hd, hlast]
      simp [hc]
    · rw [if_neg hc] at hd'
      rw [hmem hd']
      simp [Ne.symm hc]
  · intro c d' hd'
    rw [Arena.get?_of_update hupdate] at hd'
    by_cases hc : c = container m
    · rw [if_pos hc] at hd'
      rcases Option.map_eq_some_iff.mp hd' with ⟨d, hd, rfl⟩
      rw [hlast, List.pairwise_append]
      refine ⟨h.increasing hd, List.pairwise_singleton _ _, ?_⟩
      intro j hj k hk
      rw [List.mem_singleton.mp hk]
      exact hbefore hd j hj
    · rw [if_neg hc] at hd'
      exact h.increasing hd'
  · intro j m' hm'
    rw [Arena.size_of_update hupdate]
    rw [Arena.get?_of_push hpush] at hm'
    by_cases hj : j = i
    · have heq : m = m' := by simpa [hj] using hm'
      subst heq
      exact (Arena.update_eq_ok_iff.mp hupdate).1
    · rw [if_neg hj] at hm'
      exact h.container_lt hm'

-- members of another kind are listed apart.
theorem update_other (h : Indexed classes members container listed) {c : ClassId}
    {f : ClassDecl → ClassDecl} (hupdate : classes.update c f = .ok classes')
    (hsame : ∀ d, listed (f d) = listed d) : Indexed classes' members container listed := by
  have hlist : ∀ {c' d'}, classes'.get? c' = some d' →
      ∃ d, classes.get? c' = some d ∧ listed d' = listed d := by
    intro c' d' hd'
    rw [Arena.get?_of_update hupdate] at hd'
    by_cases hc : c' = c
    · rw [if_pos hc] at hd'
      rcases Option.map_eq_some_iff.mp hd' with ⟨d, hd, rfl⟩
      exact ⟨d, hd, hsame d⟩
    · rw [if_neg hc] at hd'
      exact ⟨d', hd', rfl⟩
  refine ⟨?_, ?_, ?_⟩
  · intro c' d' hd' i
    rcases hlist hd' with ⟨d, hd, heq⟩
    rw [heq]
    exact h.mem_listed_iff hd i
  · intro c' d' hd'
    rcases hlist hd' with ⟨d, hd, heq⟩
    rw [heq]
    exact h.increasing hd
  · intro i m hm
    rw [Arena.size_of_update hupdate]
    exact h.container_lt hm

end Indexed

/-! ## Consistent tables -/

namespace ClassTable

/-- The two records of membership agree, and the built-in classes are there. -/
structure Consistent (t : ClassTable) : Prop where
  builtins : 3 ≤ t.classes.size
  fields : Indexed t.classes t.fields FieldDecl.container ClassDecl.fields
  methods : Indexed t.classes t.methods MethodDecl.container ClassDecl.methods

-- the built-in classes are declared in every table.
theorem Consistent.declared_builtin {t : ClassTable} (h : t.Consistent) {c : ClassId}
    (hc : c.index < 3) : t.Declared c :=
  Nat.lt_of_lt_of_le hc h.builtins

theorem builtin_get? {c : ClassId} {d : ClassDecl} (h : Builtin.table.classes.get? c = some d) :
    c = Builtin.object ∧ d = Builtin.objectDecl ∨ c = Builtin.string ∧ d = Builtin.stringDecl ∨
      c = Builtin.array ∧ d = Builtin.arrayDecl := by
  have hlt : c.index < 3 := Arena.index_lt_of_get? h
  have hc : c = Builtin.object ∨ c = Builtin.string ∨ c = Builtin.array := by
    have hcases : c.index = 0 ∨ c.index = 1 ∨ c.index = 2 := by omega
    rcases hcases with h0 | h1 | h2
    · exact .inl (Ident.index_inj.mp h0)
    · exact .inr (.inl (Ident.index_inj.mp h1))
    · exact .inr (.inr (Ident.index_inj.mp h2))
  rcases hc with rfl | rfl | rfl
  · exact .inl ⟨rfl, (Option.some.inj h).symm⟩
  · exact .inr (.inl ⟨rfl, (Option.some.inj h).symm⟩)
  · exact .inr (.inr ⟨rfl, (Option.some.inj h).symm⟩)

theorem builtin_field {f : FieldId} {d : FieldDecl} :
    Builtin.table.fields.get? f = some d ↔
      f = Builtin.arrayLength ∧ d = Builtin.arrayLengthDecl := by
  refine ⟨?_, ?_⟩
  · intro h
    have hlt : f.index < 1 := Arena.index_lt_of_get? h
    have heq : f = Builtin.arrayLength := Ident.index_inj.mp (Nat.lt_one_iff.mp hlt)
    subst heq
    exact ⟨rfl, (Option.some.inj h).symm⟩
  · intro h
    rcases h with ⟨rfl, rfl⟩
    rfl

theorem consistent_builtin : Builtin.table.Consistent := by
  refine ⟨Nat.le_refl 3, ⟨?_, ?_, ?_⟩, ⟨?_, ?_, ?_⟩⟩
  · intro c d hd i
    simp only [builtin_field]
    rcases builtin_get? hd with ⟨rfl, rfl⟩ | ⟨rfl, rfl⟩ | ⟨rfl, rfl⟩ <;>
      simp [Builtin.objectDecl, Builtin.stringDecl, Builtin.arrayDecl, Builtin.arrayLengthDecl]
    · exact fun _ ↦ by decide
    · exact fun _ ↦ by decide
  · intro c d hd
    rcases builtin_get? hd with ⟨rfl, rfl⟩ | ⟨rfl, rfl⟩ | ⟨rfl, rfl⟩ <;> decide
  · intro i m hm
    rcases builtin_field.mp hm with ⟨rfl, rfl⟩
    decide
  · intro c d hd i
    have hnone : Builtin.table.methods.get? i = none := rfl
    rw [hnone]
    rcases builtin_get? hd with ⟨rfl, rfl⟩ | ⟨rfl, rfl⟩ | ⟨rfl, rfl⟩ <;>
      simp [Builtin.objectDecl, Builtin.stringDecl, Builtin.arrayDecl]
  · intro c d hd
    rcases builtin_get? hd with ⟨rfl, rfl⟩ | ⟨rfl, rfl⟩ | ⟨rfl, rfl⟩ <;> exact .nil
  · intro i m hm
    exact absurd hm (by simp [Builtin.table, Arena.get?])

/-! ## What a declaration does -/

section declare

variable {t t' : ClassTable}

theorem addClass_eq_ok_iff {name : String} {modifiers : Modifiers} {superclass : Option Ty}
    {typeParams : List String} {c : ClassId} :
    t.addClass name modifiers superclass typeParams = .ok (c, t') ↔
      ∃ classes, t.classes.push ⟨name, modifiers, some (superclass.getD (.ofClass Builtin.object)),
          typeParams, [], []⟩ = .ok (c, classes) ∧
        t' = { t with classes := classes, names := t.names.insert name c } := by
  simp only [addClass, bind_eq_ok_iff]
  refine ⟨?_, ?_⟩
  · intro h
    rcases h with ⟨⟨c', classes⟩, hpush, h⟩
    rcases Prod.mk.inj (Except.ok.inj h) with ⟨rfl, rfl⟩
    exact ⟨classes, hpush, rfl⟩
  · intro h
    rcases h with ⟨classes, hpush, rfl⟩
    exact ⟨(c, classes), hpush, rfl⟩

theorem addField_eq_ok_iff {decl : FieldDecl} {f : FieldId} :
    t.addField decl = .ok (f, t') ↔
      ∃ fields classes, t.fields.push decl = .ok (f, fields) ∧
        t.classes.update decl.container (fun d ↦ { d with fields := d.fields ++ [f] }) =
          .ok classes ∧ t' = { t with fields := fields, classes := classes } := by
  simp only [addField, bind_eq_ok_iff]
  refine ⟨?_, ?_⟩
  · intro h
    rcases h with ⟨⟨f', fields⟩, hpush, classes, hupdate, h⟩
    rcases Prod.mk.inj (Except.ok.inj h) with ⟨rfl, rfl⟩
    exact ⟨fields, classes, hpush, hupdate, rfl⟩
  · intro h
    rcases h with ⟨fields, classes, hpush, hupdate, rfl⟩
    exact ⟨(f, fields), hpush, classes, hupdate, rfl⟩

theorem addMethod_eq_ok_iff {decl : MethodDecl} {m : MethodId} :
    t.addMethod decl = .ok (m, t') ↔
      ∃ methods classes, t.methods.push decl = .ok (m, methods) ∧
        t.classes.update decl.container (fun d ↦ { d with methods := d.methods ++ [m] }) =
          .ok classes ∧ t' = { t with methods := methods, classes := classes } := by
  simp only [addMethod, bind_eq_ok_iff]
  refine ⟨?_, ?_⟩
  · intro h
    rcases h with ⟨⟨m', methods⟩, hpush, classes, hupdate, h⟩
    rcases Prod.mk.inj (Except.ok.inj h) with ⟨rfl, rfl⟩
    exact ⟨methods, classes, hpush, hupdate, rfl⟩
  · intro h
    rcases h with ⟨methods, classes, hpush, hupdate, rfl⟩
    exact ⟨(m, methods), hpush, classes, hupdate, rfl⟩

/-- A declaration adds a class, a field or a procedure, and nothing else. -/
theorem declare_cases {d : Declaration} {id : DeclaredId} (h : t.declare d = .ok (id, t')) :
    (∃ name modifiers superclass typeParams c,
      d = .newClass name modifiers superclass typeParams ∧ id = .newClass c ∧
        t.addClass name modifiers superclass typeParams = .ok (c, t')) ∨
    (∃ decl f, d = .field decl.container decl.name decl.ty decl.modifiers ∧ id = .field f ∧
      t.addField decl = .ok (f, t')) ∨
    (∃ decl m, (d = .method decl.container decl.name decl.modifiers decl.formals decl.result ∧
          decl.kind = .method ∨
        ∃ container modifiers formals, d = .constructor container modifiers formals ∧
          decl = .ofConstructor container modifiers formals) ∧
      id = .method m ∧ t.addMethod decl = .ok (m, t')) := by
  cases d with
  | newClass name modifiers superclass typeParams =>
    rcases bind_eq_ok_iff.mp h with ⟨⟨c, next⟩, hadd, h⟩
    rcases Prod.mk.inj (Except.ok.inj h) with ⟨rfl, rfl⟩
    exact .inl ⟨name, modifiers, superclass, typeParams, c, rfl, rfl, hadd⟩
  | field container name ty modifiers =>
    rcases bind_eq_ok_iff.mp h with ⟨⟨f, next⟩, hadd, h⟩
    rcases Prod.mk.inj (Except.ok.inj h) with ⟨rfl, rfl⟩
    exact .inr (.inl ⟨_, f, rfl, rfl, hadd⟩)
  | method container name modifiers formals result =>
    rcases bind_eq_ok_iff.mp h with ⟨⟨m, next⟩, hadd, h⟩
    rcases Prod.mk.inj (Except.ok.inj h) with ⟨rfl, rfl⟩
    exact .inr (.inr ⟨_, m, .inl ⟨rfl, rfl⟩, rfl, hadd⟩)
  | constructor container modifiers formals =>
    rcases bind_eq_ok_iff.mp h with ⟨⟨m, next⟩, hadd, h⟩
    rcases Prod.mk.inj (Except.ok.inj h) with ⟨rfl, rfl⟩
    exact .inr (.inr ⟨_, m, .inr ⟨container, modifiers, formals, rfl, rfl⟩, rfl, hadd⟩)

end declare

-- every declaration writes both records.
theorem Consistent.declare {t t' : ClassTable} {d : Declaration} {id : DeclaredId}
    (h : t.Consistent) (hd : t.declare d = .ok (id, t')) : t'.Consistent := by
  rcases declare_cases hd with ⟨name, modifiers, superclass, typeParams, c, -, -, hadd⟩ |
    ⟨decl, f, -, -, hadd⟩ | ⟨decl, m, -, -, hadd⟩
  · rcases addClass_eq_ok_iff.mp hadd with ⟨classes, hpush, rfl⟩
    have hsize := Arena.size_of_push hpush
    have hthree := h.builtins
    exact ⟨by show 3 ≤ classes.size; omega, h.fields.push_class hpush rfl,
      h.methods.push_class hpush rfl⟩
  · rcases addField_eq_ok_iff.mp hadd with ⟨fields, classes, hpush, hupdate, rfl⟩
    refine ⟨?_, h.fields.push_member hpush hupdate fun _ ↦ rfl,
      h.methods.update_other hupdate fun _ ↦ rfl⟩
    exact Nat.le_trans h.builtins (Nat.le_of_eq (Arena.size_of_update hupdate).symm)
  · rcases addMethod_eq_ok_iff.mp hadd with ⟨methods, classes, hpush, hupdate, rfl⟩
    refine ⟨?_, h.fields.update_other hupdate fun _ ↦ rfl,
      h.methods.push_member hpush hupdate fun _ ↦ rfl⟩
    exact Nat.le_trans h.builtins (Nat.le_of_eq (Arena.size_of_update hupdate).symm)

theorem Reached.consistent {t : ClassTable} (h : t.Reached) : t.Consistent := by
  rcases h with ⟨ds, hrun⟩
  exact declareAll_preserves Consistent.declare consistent_builtin hrun

end ClassTable

end ObjectAbi
