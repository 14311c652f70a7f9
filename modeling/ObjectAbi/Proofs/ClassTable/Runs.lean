import ObjectAbi.Proofs.ClassTable.Growth

/-!
# Runs of declarations

A run of declarations numbers the members that it declares one after the other, whatever their
classes. What a class gains is the part of the run that is about it, in the order of that part. So
two runs that give every class the same fields in the same order, and the same procedures in the
same order, lead to the same table but for the numbers, however the parts are interleaved.
-/

namespace ObjectAbi

/-! ## Arenas -/

namespace Arena

variable {e : Entity} {α : Type} {a : Arena e α} {i : Ident e}

theorem exists_push (d : α) (h : a.size < Ident.capacity) : ∃ r, a.push d = .ok r :=
  ⟨_, dif_pos h⟩

theorem exists_update (f : α → α) (h : i.index < a.size) : ∃ b, a.update i f = .ok b :=
  ⟨_, if_pos h⟩

end Arena

/-! ## What a run declares -/

-- what a run declares first comes before what the rest of it declares.
theorem filterMap_cons_eq_append {α β : Type} (f : α → Option β) (x : α) (xs : List α) :
    (x :: xs).filterMap f = (f x).toList ++ xs.filterMap f := by
  rw [List.filterMap_cons]
  cases f x <;> rfl

namespace Declaration

/-- The field that is declared. -/
def fieldDecl? : Declaration → Option FieldDecl
  | field container name ty modifiers => some ⟨name, container, ty, modifiers⟩
  | _ => none

/-- The procedure that is declared. -/
def methodDecl? : Declaration → Option MethodDecl
  | method container name modifiers formals result =>
    some ⟨name, container, modifiers, .method, formals, result⟩
  | constructor container modifiers formals => some (.ofConstructor container modifiers formals)
  | _ => none

/-- The types that are written in the declaration. -/
def types : Declaration → List Ty
  | newClass _ _ superclass _ => superclass.toList
  | field _ _ ty _ => [ty]
  | method _ _ _ formals result => result :: formals
  | constructor _ _ formals => formals

theorem mem_types_of_formal {d : Declaration} {decl : MethodDecl} (hd : d.methodDecl? = some decl)
    {ty : Ty} (hty : ty ∈ decl.formals) : ty ∈ d.types := by
  cases d with
  | newClass | field => cases hd
  | method =>
    cases hd
    exact List.mem_cons_of_mem _ hty
  | constructor =>
    cases hd
    exact hty

/-- The declaration adds a field to the class. -/
def addsField (c : ClassId) : Declaration → Bool
  | field container _ _ _ => container = c
  | _ => false

/-- The declaration adds a method or a constructor to the class. -/
def addsProcedure (c : ClassId) : Declaration → Bool
  | method container _ _ _ _ | constructor container _ _ => container = c
  | _ => false

/-- Both runs add the same fields to each class in the same order, and the same procedures. -/
structure SameByClass (ds ds' : List Declaration) : Prop where
  fields : ∀ c, ds.filter (addsField c) = ds'.filter (addsField c)
  procedures : ∀ c, ds.filter (addsProcedure c) = ds'.filter (addsProcedure c)

variable {ds ds' : List Declaration}

theorem container?_of_addsField {d : Declaration} {c : ClassId} (h : d.addsField c) :
    d.container? = some c := by
  cases d <;> simp_all [addsField, container?]

theorem container?_of_addsProcedure {d : Declaration} {c : ClassId} (h : d.addsProcedure c) :
    d.container? = some c := by
  cases d <;> simp_all [addsProcedure, container?]

-- only the classes that the runs add members to have to be looked at.
theorem sameByClass_iff : SameByClass ds ds' ↔
    ∀ c ∈ (ds ++ ds').filterMap container?, ds.filter (addsField c) = ds'.filter (addsField c) ∧
      ds.filter (addsProcedure c) = ds'.filter (addsProcedure c) := by
  refine ⟨fun h c _ ↦ ⟨h.fields c, h.procedures c⟩, fun h ↦ ?_⟩
  -- no part of either run is about any other class
  have hfilter : ∀ {c : ClassId} {adds : Declaration → Bool},
      (∀ d : Declaration, adds d → d.container? = some c) →
      (c ∈ (ds ++ ds').filterMap container? → ds.filter adds = ds'.filter adds) →
      ds.filter adds = ds'.filter adds := by
    intro c adds hadds heq
    by_cases hc : c ∈ (ds ++ ds').filterMap container?
    · exact heq hc
    · have hnot : ∀ d ∈ ds ++ ds', ¬ adds d := fun d hd had ↦
        hc (List.mem_filterMap.mpr ⟨d, hd, hadds d had⟩)
      rw [List.filter_eq_nil_iff.mpr fun d hd ↦ hnot d (List.mem_append_left _ hd),
        List.filter_eq_nil_iff.mpr fun d hd ↦ hnot d (List.mem_append_right _ hd)]
  exact ⟨fun c ↦ hfilter (fun _ ↦ container?_of_addsField) fun hc ↦ (h c hc).1,
    fun c ↦ hfilter (fun _ ↦ container?_of_addsProcedure) fun hc ↦ (h c hc).2⟩

instance : Decidable (SameByClass ds ds') := decidable_of_iff _ sameByClass_iff.symm

theorem filter_fieldDecls (ds : List Declaration) (c : ClassId) :
    (ds.filterMap fieldDecl?).filter (·.container = c) =
      (ds.filter (addsField c)).filterMap fieldDecl? := by
  rw [List.filter_filterMap, List.filterMap_filter]
  refine List.filterMap_congr fun d _ ↦ ?_
  cases d <;> simp [fieldDecl?, addsField, Option.filter]

theorem filter_methodDecls (ds : List Declaration) (c : ClassId) :
    (ds.filterMap methodDecl?).filter (·.container = c) =
      (ds.filter (addsProcedure c)).filterMap methodDecl? := by
  rw [List.filter_filterMap, List.filterMap_filter]
  refine List.filterMap_congr fun d _ ↦ ?_
  cases d <;> simp [methodDecl?, addsProcedure, Option.filter, MethodDecl.ofConstructor]

-- runs of member declarations that agree class by class are rearrangements of each other.
theorem SameByClass.perm (h : SameByClass ds ds') (hds : ∀ d ∈ ds, d.container? ≠ none)
    (hds' : ∀ d ∈ ds', d.container? ≠ none) : ds.Perm ds' := by
  refine List.perm_iff_count.mpr fun d ↦ ?_
  cases d with
  | newClass name modifiers superclass typeParams =>
    rw [List.count_eq_zero.mpr fun hd ↦ hds _ hd rfl, List.count_eq_zero.mpr fun hd ↦ hds' _ hd rfl]
  | field container name ty modifiers =>
    have hadds : addsField container (.field container name ty modifiers) := by simp [addsField]
    rw [← List.count_filter hadds, h.fields, List.count_filter hadds]
  | method container name modifiers formals result =>
    have hadds : addsProcedure container (.method container name modifiers formals result) := by
      simp [addsProcedure]
    rw [← List.count_filter hadds, h.procedures, List.count_filter hadds]
  | constructor container modifiers formals =>
    have hadds : addsProcedure container (.constructor container modifiers formals) := by
      simp [addsProcedure]
    rw [← List.count_filter hadds, h.procedures, List.count_filter hadds]

end Declaration

/-! ## What a run leads to -/

namespace ClassTable

variable {t t' t'' : ClassTable} {c : ClassId} {d : Declaration} {id : DeclaredId}
  {ds : List Declaration}

theorem decls_of_declare (h : t.declare d = .ok (id, t')) :
    (d.newFields id).map (·.decl) = d.fieldDecl?.toList ∧
      (d.newMethods id).map (·.decl) = d.methodDecl?.toList := by
  obtain ⟨name, modifiers, superclass, typeParams, c, rfl, rfl, -⟩ | ⟨decl, f, rfl, rfl, -⟩ |
    ⟨decl, m, hdecl, rfl, -⟩ := declare_cases h
  · exact ⟨rfl, rfl⟩
  · exact ⟨rfl, rfl⟩
  · obtain ⟨rfl, -⟩ | ⟨container, modifiers, formals, rfl, -⟩ := hdecl <;> exact ⟨rfl, rfl⟩

theorem sizes_of_declare (h : t.declare d = .ok (id, t')) :
    t'.fields.size = t.fields.size + d.fieldDecl?.toList.length ∧
      t'.methods.size = t.methods.size + d.methodDecl?.toList.length := by
  obtain ⟨name, modifiers, superclass, typeParams, c, rfl, rfl, hadd⟩ | ⟨decl, f, rfl, rfl, hadd⟩ |
    ⟨decl, m, hdecl, rfl, hadd⟩ := declare_cases h
  · obtain ⟨classes, -, rfl⟩ := addClass_eq_ok_iff.mp hadd
    exact ⟨rfl, rfl⟩
  · obtain ⟨fields, classes, hpush, -, rfl⟩ := addField_eq_ok_iff.mp hadd
    exact ⟨Arena.size_of_push hpush, rfl⟩
  · obtain ⟨methods, classes, hpush, -, rfl⟩ := addMethod_eq_ok_iff.mp hadd
    obtain ⟨rfl, -⟩ | ⟨container, modifiers, formals, rfl, -⟩ := hdecl <;>
      exact ⟨rfl, Arena.size_of_push hpush⟩

-- a member can be added to a declared class as long as a number of its kind is left.
theorem exists_declare (hc : d.container? = some c) (hdeclared : t.Declared c)
    (hfields : t.fields.size + d.fieldDecl?.toList.length ≤ Ident.capacity)
    (hmethods : t.methods.size + d.methodDecl?.toList.length ≤ Ident.capacity) :
    ∃ id t', t.declare d = .ok (id, t') := by
  have haddMethod : ∀ decl : MethodDecl, decl.container = c →
      t.methods.size + 1 ≤ Ident.capacity → ∃ r, t.addMethod decl = .ok r := by
    rintro decl rfl hroom
    obtain ⟨⟨m, methods⟩, hpush⟩ := Arena.exists_push decl hroom
    obtain ⟨classes, hupdate⟩ := Arena.exists_update
      (fun d ↦ { d with methods := d.methods ++ [m] }) hdeclared
    exact ⟨_, addMethod_eq_ok_iff.mpr ⟨methods, classes, hpush, hupdate, rfl⟩⟩
  cases d with
  | newClass name modifiers superclass typeParams => cases hc
  | field container name ty modifiers =>
    cases hc
    obtain ⟨⟨f, fields⟩, hpush⟩ := Arena.exists_push ⟨name, c, ty, modifiers⟩ hfields
    obtain ⟨classes, hupdate⟩ := Arena.exists_update
      (fun d ↦ { d with fields := d.fields ++ [f] }) hdeclared
    have hadd : t.addField ⟨name, c, ty, modifiers⟩ =
        .ok (f, { t with fields := fields, classes := classes }) :=
      addField_eq_ok_iff.mpr ⟨fields, classes, hpush, hupdate, rfl⟩
    exact ⟨.field f, _, bind_eq_ok_iff.mpr ⟨_, hadd, rfl⟩⟩
  | method container name modifiers formals result =>
    cases hc
    obtain ⟨⟨m, t'⟩, hadd⟩ :=
      haddMethod ⟨name, c, modifiers, .method, formals, result⟩ rfl hmethods
    exact ⟨.method m, t', bind_eq_ok_iff.mpr ⟨_, hadd, rfl⟩⟩
  | constructor container modifiers formals =>
    cases hc
    obtain ⟨⟨m, t'⟩, hadd⟩ := haddMethod (.ofConstructor c modifiers formals) rfl hmethods
    exact ⟨.method m, t', bind_eq_ok_iff.mpr ⟨_, hadd, rfl⟩⟩

/-! ## Whole runs -/

theorem Gains.refl (t : ClassTable) : t.Gains t [] [] :=
  ⟨Nat.le_refl _, fun {_ d} hd ↦ by rwa [d.gain_nil], fun h ↦ h, fun h ↦ h, by simp, by simp⟩

theorem Gains.trans {fields fields' : List FieldEntry} {methods methods' : List MethodEntry}
    (h : t.Gains t' fields methods) (h' : t'.Gains t'' fields' methods') :
    t.Gains t'' (fields ++ fields') (methods ++ methods') where
  size_le := h.size_le.trans h'.size_le
  classDecl hd := by simpa [ClassDecl.gain, ownedBy] using h'.classDecl (h.classDecl hd)
  fieldDecl hd := h'.fieldDecl (h.fieldDecl hd)
  methodDecl hd := h'.methodDecl (h.methodDecl hd)
  newField f hf := by
    obtain hf | hf := List.mem_append.mp hf
    · exact h'.fieldDecl (h.newField f hf)
    · exact h'.newField f hf
  newMethod m hm := by
    obtain hm | hm := List.mem_append.mp hm
    · exact h'.methodDecl (h.newMethod m hm)
    · exact h'.newMethod m hm

-- the members that a table gains in a run are those that the run declares, in its order.
theorem gains_of_declareAll (hrun : t.declareAll ds = .ok t') :
    ∃ fields methods, t.Gains t' fields methods ∧
      fields.map (·.decl) = ds.filterMap Declaration.fieldDecl? ∧
      methods.map (·.decl) = ds.filterMap Declaration.methodDecl? := by
  induction ds generalizing t with
  | nil =>
    cases hrun
    exact ⟨[], [], .refl _, rfl, rfl⟩
  | cons d ds ih =>
    obtain ⟨⟨id, next⟩, hd, hrest⟩ := bind_eq_ok_iff.mp hrun
    obtain ⟨fields, methods, hgains, hfields, hmethods⟩ := ih hrest
    obtain ⟨hfield, hmethod⟩ := decls_of_declare hd
    refine ⟨_, _, (gains_of_declare hd).trans hgains, ?_, ?_⟩
    · rw [List.map_append, hfield, hfields, filterMap_cons_eq_append]
    · rw [List.map_append, hmethod, hmethods, filterMap_cons_eq_append]

theorem sizes_of_declareAll (hrun : t.declareAll ds = .ok t') :
    t'.fields.size = t.fields.size + (ds.filterMap Declaration.fieldDecl?).length ∧
      t'.methods.size = t.methods.size + (ds.filterMap Declaration.methodDecl?).length := by
  induction ds generalizing t with
  | nil =>
    cases hrun
    exact ⟨rfl, rfl⟩
  | cons d ds ih =>
    obtain ⟨⟨id, next⟩, hd, hrest⟩ := bind_eq_ok_iff.mp hrun
    obtain ⟨hfields, hmethods⟩ := ih hrest
    obtain ⟨hfield, hmethod⟩ := sizes_of_declare hd
    simp only [filterMap_cons_eq_append, List.length_append]
    omega

/-- The declaration adds a member to a class that is declared. -/
def AddsMember (t : ClassTable) (d : Declaration) : Prop :=
  ∃ c, d.container? = some c ∧ t.Declared c

instance (t : ClassTable) (d : Declaration) : Decidable (t.AddsMember d) :=
  inferInstanceAs (Decidable (∃ c ∈ d.container?, t.Declared c))

theorem AddsMember.container?_ne_none (h : t.AddsMember d) : d.container? ≠ none := by
  obtain ⟨c, hc, -⟩ := h
  simp [hc]

-- the class of the member is declared in a grown table as well.
theorem AddsMember.of_size_eq (h : t.AddsMember d) (hsize : t'.classes.size = t.classes.size) :
    t'.AddsMember d := by
  obtain ⟨c, hc, hdeclared⟩ := h
  exact ⟨c, hc, by rwa [Declared, hsize]⟩

-- a run of member declarations declares no class.
theorem classes_size_of_declareAll (hmembers : ∀ d ∈ ds, t.AddsMember d)
    (hrun : t.declareAll ds = .ok t') : t'.classes.size = t.classes.size := by
  induction ds generalizing t with
  | nil =>
    cases hrun
    rfl
  | cons d ds ih =>
    obtain ⟨⟨id, next⟩, hd, hrest⟩ := bind_eq_ok_iff.mp hrun
    obtain ⟨⟨c, hc, -⟩, hmembers⟩ := List.forall_mem_cons.mp hmembers
    have hsize := (container_of_declare hd hc).2
    rw [ih (fun d hd ↦ (hmembers d hd).of_size_eq hsize) hrest, hsize]

-- a run of member declarations goes through as long as there are numbers for all of them.
theorem exists_declareAll (hmembers : ∀ d ∈ ds, t.AddsMember d)
    (hfields : t.fields.size + (ds.filterMap Declaration.fieldDecl?).length ≤ Ident.capacity)
    (hmethods : t.methods.size + (ds.filterMap Declaration.methodDecl?).length ≤ Ident.capacity) :
    ∃ t', t.declareAll ds = .ok t' := by
  induction ds generalizing t with
  | nil => exact ⟨t, rfl⟩
  | cons d ds ih =>
    obtain ⟨⟨c, hc, hdeclared⟩, hmembers⟩ := List.forall_mem_cons.mp hmembers
    simp only [filterMap_cons_eq_append, List.length_append] at hfields hmethods
    obtain ⟨id, next, hd⟩ := exists_declare hc hdeclared (by omega) (by omega)
    have hsize := (container_of_declare hd hc).2
    obtain ⟨hfield, hmethod⟩ := sizes_of_declare hd
    obtain ⟨t', hrest⟩ := ih (fun d hd ↦ (hmembers d hd).of_size_eq hsize) (by omega) (by omega)
    exact ⟨t', bind_eq_ok_iff.mpr ⟨_, hd, hrest⟩⟩

-- whether a run of member declarations goes through does not depend on their order.
theorem exists_declareAll_of_perm {ds' : List Declaration} (hmembers : ∀ d ∈ ds', t.AddsMember d)
    (hperm : ds.Perm ds') (hrun : t.declareAll ds = .ok t') :
    ∃ t'', t.declareAll ds' = .ok t'' := by
  obtain ⟨hfields, hmethods⟩ := sizes_of_declareAll hrun
  rw [(hperm.filterMap _).length_eq] at hfields hmethods
  exact exists_declareAll hmembers (hfields ▸ t'.fields.size_le) (hmethods ▸ t'.methods.size_le)

end ClassTable

end ObjectAbi
