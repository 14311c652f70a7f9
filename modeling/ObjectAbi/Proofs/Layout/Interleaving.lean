import ObjectAbi.Proofs.ClassTable.Runs
import ObjectAbi.Proofs.Layout.GrownLayouts
import ObjectAbi.Proofs.Layout.PlainRecursion
import ObjectAbi.Proofs.Symbol.ClassNames
import ObjectAbi.Proofs.Symbol.Decoding

/-!
# The order of declarations

The members of a program are declared class by class, or all fields before all procedures, or in any
other order that keeps the fields of each class in their order and its procedures in theirs. The
order decides how members are numbered. It decides nothing else: field lists, slots and symbols are
worked out from what is declared, and never from numbers.
-/

namespace ObjectAbi

/-! ## Without numbers -/

/-- The entry under a number that says nothing. -/
def Entry.unnumbered {e : Entity} {α : Type} (x : Entry e α) : Entry e α := ⟨.ofIndex 0, x.decl⟩

theorem Entry.map_unnumbered_eq {e : Entity} {α : Type} {xs ys : List (Entry e α)}
    (h : xs.map (·.decl) = ys.map (·.decl)) : xs.map unnumbered = ys.map unnumbered := by
  have hdecls := congrArg (List.map fun d ↦ (⟨.ofIndex 0, d⟩ : Entry e α)) h
  rwa [List.map_map, List.map_map] at hdecls

/-- The declarations of the two methods that the slot keeps. -/
def Slot.decls (s : Slot) : MethodDecl × MethodDecl := (s.declared.decl, s.implementation.decl)

/-- The class and its members without their numbers. The number of the class itself stays. -/
def ClassView.unnumbered (v : ClassView) : ClassView where
  id := v.id
  decl := { v.decl with fields := [], methods := [] }
  fields := v.fields.map Entry.unnumbered
  methods := v.methods.map Entry.unnumbered

theorem ClassView.fieldsOf_unnumbered (v : ClassView) (kind : FieldKind) :
    v.unnumbered.fieldsOf kind = (v.fieldsOf kind).map Entry.unnumbered :=
  List.filter_map

theorem ClassView.virtuals_unnumbered (v : ClassView) :
    v.unnumbered.virtuals = v.virtuals.map Entry.unnumbered :=
  List.filter_map

namespace Lineage

theorem map_map (g f : ClassView → ClassView) (l : Lineage) :
    (l.map f).map g = l.map fun v ↦ g (f v) := by
  induction l with
  | root v => rfl
  | heir v above ih => exact congrArg (heir (g (f v))) ih
  | broken c fault => rfl

variable {l l' : Lineage} (h : l.map ClassView.unnumbered = l'.map ClassView.unnumbered)

include h

-- lineages that differ in numbers only give the same declarations of fields in the same order.
theorem field_decls_eq (kind : FieldKind) :
    List.map (·.decl) <$> l.fields kind = List.map (·.decl) <$> l'.fields kind := by
  have hdecls : ∀ l : Lineage, List.map (·.decl) <$> l.fields kind =
      List.map (·.decl) <$> (l.map ClassView.unnumbered).fields kind := by
    intro l
    rw [fields_map fun v ↦ v.fieldsOf_unnumbered kind, ← comp_map]
    refine congrArg (· <$> _) (funext fun fields ↦ ?_)
    rw [Function.comp_apply, List.map_map]
    rfl
  rw [hdecls l, hdecls l', h]

theorem slot_decls_eq :
    List.map Slot.decls <$> l.slots = List.map Slot.decls <$> l'.slots := by
  have hdecls : ∀ l : Lineage, List.map Slot.decls <$> l.slots =
      List.map Slot.decls <$> (l.map ClassView.unnumbered).slots := by
    intro l
    rw [slots_map (f := Entry.unnumbered) (fun _ _ ↦ rfl) ClassView.virtuals_unnumbered,
      ← comp_map]
    refine congrArg (· <$> _) (funext fun slots ↦ ?_)
    rw [Function.comp_apply, List.map_map]
    rfl
  rw [hdecls l, hdecls l', h]

end Lineage

-- views that differ in numbers only show the same declarations in the same order.
theorem ClassView.decls_eq {v v' : ClassView} (h : v.unnumbered = v'.unnumbered) :
    v.methods.map (·.decl) = v'.methods.map (·.decl) ∧
      ∀ kind, (v.fieldsOf kind).map (·.decl) = (v'.fieldsOf kind).map (·.decl) := by
  have hmethods := congrArg (fun v ↦ v.methods.map (·.decl)) h
  refine ⟨by simpa [unnumbered, Entry.unnumbered, Function.comp_def] using hmethods, fun kind ↦ ?_⟩
  have hfields := congrArg (fun v ↦ (v.fieldsOf kind).map (·.decl)) h
  simpa [fieldsOf_unnumbered, Entry.unnumbered, Function.comp_def] using hfields

/-! ## Symbols of a class's own members -/

namespace Symbol

/-- The symbols of the procedures that the class itself declares. -/
def proceduresOf (t : ClassTable) (c : ClassId) : Except Fault (List String) := do
  ((← t.view c).methods.map (·.decl)).mapM (procedure t)

/-- The symbols of the static fields that the class itself declares. -/
def staticFieldsOf (t : ClassTable) (c : ClassId) : Except Fault (List String) := do
  (((← t.view c).fieldsOf .perClass).map (·.decl)).mapM (staticField t)

variable {t t' : ClassTable} {c : ClassId} {v v' : ClassView}

theorem exists_proceduresOf (ht : t.Consistent) (hv : t.view c = .ok v)
    (hformals : ∀ m ∈ v.methods, ∀ ty ∈ m.decl.formals, t.Knows ty) :
    ∃ symbols, proceduresOf t c = .ok symbols := by
  obtain ⟨symbols, hsymbols⟩ : ∃ symbols, (v.methods.map (·.decl)).mapM (procedure t) =
      .ok symbols := by
    refine exists_mapM_eq_ok fun decl hdecl ↦ ?_
    obtain ⟨m, hm, rfl⟩ := List.mem_map.mp hdecl
    obtain ⟨_, _, -, -, hsymbol⟩ :=
      exists_procedure ht (ht.declares_of_mem_view hv hm).lookup (hformals m hm)
    exact ⟨_, hsymbol⟩
  exact ⟨symbols, bind_eq_ok_iff.mpr ⟨v, hv, hsymbols⟩⟩

theorem exists_staticFieldsOf (ht : t.Consistent) (hv : t.view c = .ok v) :
    ∃ symbols, staticFieldsOf t c = .ok symbols := by
  obtain ⟨symbols, hsymbols⟩ : ∃ symbols, ((v.fieldsOf .perClass).map (·.decl)).mapM
      (staticField t) = .ok symbols := by
    refine exists_mapM_eq_ok fun decl hdecl ↦ ?_
    obtain ⟨f, hf, rfl⟩ := List.mem_map.mp hdecl
    have hlookup := ((ht.mem_fields_of_view_iff hv).mp (List.mem_of_mem_filter hf)).1
    obtain ⟨_, -, hsymbol⟩ := exists_staticField ht hlookup
    exact ⟨_, hsymbol⟩
  exact ⟨symbols, bind_eq_ok_iff.mpr ⟨v, hv, hsymbols⟩⟩

section unnumbered

variable (hv : t.view c = .ok v) (hv' : t'.view c = .ok v') (hsame : v.unnumbered = v'.unnumbered)
  (hnames : ∀ c, t'.className c = t.className c)

include hv hv' hsame hnames

theorem proceduresOf_eq : proceduresOf t' c = proceduresOf t c := by
  rw [proceduresOf, proceduresOf, hv, hv']
  change (v'.methods.map _).mapM (procedure t') = (v.methods.map _).mapM (procedure t)
  rw [(ClassView.decls_eq hsame).1]
  exact mapM_congr fun m _ ↦ procedure_congr (hnames _) fun _ _ _ _ ↦ hnames _

theorem staticFieldsOf_eq : staticFieldsOf t' c = staticFieldsOf t c := by
  rw [staticFieldsOf, staticFieldsOf, hv, hv']
  change ((v'.fieldsOf .perClass).map _).mapM (staticField t') =
    ((v.fieldsOf .perClass).map _).mapM (staticField t)
  rw [(ClassView.decls_eq hsame).2]
  exact mapM_congr fun f _ ↦ staticField_congr (hnames _)

end unnumbered

end Symbol

/-! ## Gaining the same members under other numbers -/

section gains

variable {t t₁ t₂ : ClassTable} {fields₁ fields₂ : List FieldEntry}
  {methods₁ methods₂ : List MethodEntry} {c : ClassId}

/-- Each class gains the same members from both lists, in the same order. -/
def SameGains {e : Entity} {α : Type} (container : α → ClassId) (xs ys : List (Entry e α)) : Prop :=
  ∀ c, (ownedBy container c xs).map (·.decl) = (ownedBy container c ys).map (·.decl)

theorem decls_ownedBy {e : Entity} {α : Type} (container : α → ClassId) (c : ClassId)
    (xs : List (Entry e α)) :
    (ownedBy container c xs).map (·.decl) = (xs.map (·.decl)).filter (container · = c) := by
  rw [List.filter_map]
  rfl

section declared

variable {ds ds' : List Declaration} (hsame : Declaration.SameByClass ds ds')

include hsame

-- runs that agree class by class let each class gain the same members.
theorem sameGains_fields (h₁ : fields₁.map (·.decl) = ds.filterMap Declaration.fieldDecl?)
    (h₂ : fields₂.map (·.decl) = ds'.filterMap Declaration.fieldDecl?) :
    SameGains FieldDecl.container fields₁ fields₂ := by
  intro c
  rw [decls_ownedBy, decls_ownedBy, h₁, h₂, Declaration.filter_fieldDecls,
    Declaration.filter_fieldDecls, hsame.fields]

theorem sameGains_methods (h₁ : methods₁.map (·.decl) = ds.filterMap Declaration.methodDecl?)
    (h₂ : methods₂.map (·.decl) = ds'.filterMap Declaration.methodDecl?) :
    SameGains MethodDecl.container methods₁ methods₂ := by
  intro c
  rw [decls_ownedBy, decls_ownedBy, h₁, h₂, Declaration.filter_methodDecls,
    Declaration.filter_methodDecls, hsame.procedures]

end declared

-- the procedures of a grown class have symbols if the types in the old and the new ones are known.
theorem Symbol.exists_proceduresOf_of_gains (ht₁ : t₁.Consistent)
    (hgains : t.Gains t₁ fields₁ methods₁) {v : ClassView} (hv : t.view c = .ok v)
    (hold : ∀ m ∈ v.methods, ∀ ty ∈ m.decl.formals, t.Knows ty)
    (hnew : ∀ m ∈ methods₁, ∀ ty ∈ m.decl.formals, t.Knows ty) :
    ∃ symbols, proceduresOf t₁ c = .ok symbols := by
  refine exists_proceduresOf ht₁ (hgains.view hv) fun m hm ty hty ↦ ?_
  suffices hknown : t.Knows ty from hknown.of_size_le hgains.size_le
  obtain hm | hm := List.mem_append.mp hm
  · exact hold m hm ty hty
  · exact hnew m (List.mem_of_mem_filter hm) ty hty

variable (hfields : SameGains FieldDecl.container fields₁ fields₂)
  (hmethods : SameGains MethodDecl.container methods₁ methods₂)

include hfields hmethods

theorem ClassView.unnumbered_gain (v : ClassView) :
    (v.gain fields₁ methods₁).unnumbered = (v.gain fields₂ methods₂).unnumbered := by
  simp [unnumbered, gain, ClassDecl.gain, Entry.map_unnumbered_eq (hfields v.id),
    Entry.map_unnumbered_eq (hmethods v.id)]

variable (hgains₁ : t.Gains t₁ fields₁ methods₁) (hgains₂ : t.Gains t₂ fields₂ methods₂)

include hgains₁ hgains₂

-- the two tables have the same lineages, if numbers of members are left out of account.
theorem ClassTable.Rooted.unnumbered_lineage (h : t.Rooted) (ht : t.Consistent)
    (hc : t.Declared c) :
    (t₁.lineage c).map ClassView.unnumbered = (t₂.lineage c).map ClassView.unnumbered := by
  rw [h.lineage_of_gains ht hgains₁ hc, h.lineage_of_gains ht hgains₂ hc, Lineage.map_map,
    Lineage.map_map]
  exact congrArg (Lineage.map · _) (funext (ClassView.unnumbered_gain hfields hmethods))

end gains

/-! ## Runs in different orders -/

namespace Layout

/-- The two tables differ in the numbers of a class's members only: the declarations in its field
lists and slots are the same, and so are the symbols of its own members. -/
structure SameButNumbers (t t' : ClassTable) (before before' : List Query) (c : ClassId) :
    Prop where
  fields : ∀ kind, ∃ listed listed' : List FieldEntry,
    answerAfter t before (.fields kind c) = .ok (.fields listed) ∧
    answerAfter t' before' (.fields kind c) = .ok (.fields listed') ∧
    listed.map (·.decl) = listed'.map (·.decl)
  slots : ∃ slots slots' : List Slot,
    answerAfter t before (.slots c) = .ok (.slots slots) ∧
    answerAfter t' before' (.slots c) = .ok (.slots slots') ∧
    slots.map Slot.decls = slots'.map Slot.decls
  procedures : Symbol.proceduresOf t' c = Symbol.proceduresOf t c
  staticFields : Agree (Symbol.staticFieldsOf t c) (Symbol.staticFieldsOf t' c)

variable {t t₁ t₂ : ClassTable} {c : ClassId}

theorem sameButNumbers_of_gains (h : t.Rooted) (ht : t.Consistent) (ht₁ : t₁.Consistent)
    (ht₂ : t₂.Consistent) {fields₁ fields₂ : List FieldEntry} {methods₁ methods₂ : List MethodEntry}
    (hfields : SameGains FieldDecl.container fields₁ fields₂)
    (hmethods : SameGains MethodDecl.container methods₁ methods₂)
    (hgains₁ : t.Gains t₁ fields₁ methods₁) (hgains₂ : t.Gains t₂ fields₂ methods₂)
    (hsize₁ : t₁.classes.size = t.classes.size) (hsize₂ : t₂.classes.size = t.classes.size)
    (before before' : List Query) (hc : t.Declared c) : SameButNumbers t₁ t₂ before before' c := by
  have h₁ : t₁.Rooted := h.of_superclass_eq hsize₁ fun _ ↦ hgains₁.superclass
  have h₂ : t₂.Rooted := h.of_superclass_eq hsize₂ fun _ ↦ hgains₂.superclass
  have hc₁ : t₁.Declared c := by rwa [ClassTable.Declared, hsize₁]
  have hc₂ : t₂.Declared c := by rwa [ClassTable.Declared, hsize₂]
  have hlineage := h.unnumbered_lineage hfields hmethods hgains₁ hgains₂ ht hc
  obtain ⟨v, hv⟩ := ht.exists_view hc
  have hview := v.unnumbered_gain hfields hmethods
  have hnames : ∀ c, t₂.className c = t₁.className c := fun c ↦
    (hgains₂.className_eq hsize₂ c).trans (hgains₁.className_eq hsize₁ c).symm
  refine ⟨fun kind ↦ ?_, ?_,
    Symbol.proceduresOf_eq (hgains₁.view hv) (hgains₂.view hv) hview hnames,
    .of_eq (Symbol.exists_staticFieldsOf ht₁ (hgains₁.view hv))
      (Symbol.staticFieldsOf_eq (hgains₁.view hv) (hgains₂.view hv) hview hnames)⟩
  · obtain ⟨listed, hlisted⟩ := (h₁.complete ht₁ hc₁).exists_fields kind
    obtain ⟨listed', hlisted'⟩ := (h₂.complete ht₂ hc₂).exists_fields kind
    have hdecls := Lineage.field_decls_eq hlineage kind
    rw [hlisted, hlisted'] at hdecls
    rw [answerAfter_eq_answer h₁.acyclic, answerAfter_eq_answer h₂.acyclic]
    exact ⟨listed, listed', bind_eq_ok_iff.mpr ⟨listed, hlisted, rfl⟩,
      bind_eq_ok_iff.mpr ⟨listed', hlisted', rfl⟩, Except.ok.inj hdecls⟩
  · obtain ⟨slots, hslots⟩ := (h₁.complete ht₁ hc₁).exists_slots
    obtain ⟨slots', hslots'⟩ := (h₂.complete ht₂ hc₂).exists_slots
    have hdecls := Lineage.slot_decls_eq hlineage
    rw [hslots, hslots'] at hdecls
    rw [answerAfter_eq_answer h₁.acyclic, answerAfter_eq_answer h₂.acyclic]
    exact ⟨slots, slots', bind_eq_ok_iff.mpr ⟨slots, hslots, rfl⟩,
      bind_eq_ok_iff.mpr ⟨slots', hslots', rfl⟩, Except.ok.inj hdecls⟩

/-- Two runs of member declarations that agree class by class lead to tables that differ in numbers
only, whatever layouts of them were asked before. If the types in the procedures of a class are
known from before, its procedures have symbols. -/
theorem interleaving_shows_in_numbers_only (hreached : t.Reached) (hrooted : t.Rooted)
    {ds ds' : List Declaration}
    (hmembers : ∀ d ∈ ds ++ ds', t.AddsMember d ∧ ∀ ty ∈ d.types, t.Knows ty)
    (hsame : Declaration.SameByClass ds ds') (hrun : t.declareAll ds = .ok t₁) :
    ∃ t₂, t.declareAll ds' = .ok t₂ ∧ ∀ c, t.Declared c →
      (∀ before before', SameButNumbers t₁ t₂ before before' c) ∧
      ((∀ m d, t.methodDecl m = .ok d → d.container = c → ∀ ty ∈ d.formals, t.Knows ty) →
        ∃ symbols, Symbol.proceduresOf t₁ c = .ok symbols) := by
  have ht := hreached.consistent
  have hadds : ∀ d ∈ ds, t.AddsMember d := fun d hd ↦ (hmembers d (List.mem_append_left _ hd)).1
  have hadds' : ∀ d ∈ ds', t.AddsMember d := fun d hd ↦ (hmembers d (List.mem_append_right _ hd)).1
  have hperm := hsame.perm (fun d hd ↦ (hadds d hd).container?_ne_none)
    fun d hd ↦ (hadds' d hd).container?_ne_none
  obtain ⟨t₂, hrun'⟩ := ClassTable.exists_declareAll_of_perm hadds' hperm hrun
  have ht₁ := ClassTable.declareAll_preserves ClassTable.Consistent.declare ht hrun
  have ht₂ := ClassTable.declareAll_preserves ClassTable.Consistent.declare ht hrun'
  obtain ⟨fields₁, methods₁, hgains₁, hfields₁, hmethods₁⟩ := ClassTable.gains_of_declareAll hrun
  obtain ⟨fields₂, methods₂, hgains₂, hfields₂, hmethods₂⟩ := ClassTable.gains_of_declareAll hrun'
  have hsize₁ := ClassTable.classes_size_of_declareAll hadds hrun
  have hsize₂ := ClassTable.classes_size_of_declareAll hadds' hrun'
  refine ⟨t₂, hrun', fun c hc ↦ ⟨fun before before' ↦ ?_, fun hformals ↦ ?_⟩⟩
  · exact sameButNumbers_of_gains hrooted ht ht₁ ht₂ (sameGains_fields hsame hfields₁ hfields₂)
      (sameGains_methods hsame hmethods₁ hmethods₂) hgains₁ hgains₂ hsize₁ hsize₂ before before' hc
  · obtain ⟨v, hv⟩ := ht.exists_view hc
    refine Symbol.exists_proceduresOf_of_gains ht₁ hgains₁ hv (fun m hm ↦ ?_) fun m hm ty hty ↦ ?_
    · obtain ⟨hlookup, hcontainer⟩ := (ht.mem_methods_of_view_iff hv).mp hm
      exact hformals m.id m.decl hlookup hcontainer
    · have hdecl : m.decl ∈ ds.filterMap Declaration.methodDecl? :=
        hmethods₁ ▸ List.mem_map_of_mem hm
      obtain ⟨d, hd, hmethod⟩ := List.mem_filterMap.mp hdecl
      exact (hmembers d (List.mem_append_left _ hd)).2 ty
        (Declaration.mem_types_of_formal hmethod hty)

/-! ## New members in two orders -/

def fieldsFirst : List Declaration :=
  [.field Shapes.shape "colour" .int {},
    .field Shapes.tile "glaze" .long {},
    .field Shapes.shape "total" .int (.ofList [.static]),
    .method Shapes.shape "draw" {} [.classType Shapes.square [.int]] .void,
    .method Shapes.tile "draw" {} [.ofClass Shapes.square] .void,
    .constructor Shapes.square {} [.array (.ofClass Shapes.tile)]]

/-- The same declarations, in an order that mixes classes and kinds of members. -/
def mixed : List Declaration :=
  [.constructor Shapes.square {} [.array (.ofClass Shapes.tile)],
    .method Shapes.tile "draw" {} [.ofClass Shapes.square] .void,
    .field Shapes.tile "glaze" .long {},
    .method Shapes.shape "draw" {} [.classType Shapes.square [.int]] .void,
    .field Shapes.shape "colour" .int {},
    .field Shapes.shape "total" .int (.ofList [.static])]

theorem order_of_new_members_shows_in_numbers_only :
    ∃ t₁ t₂, Shapes.table.declareAll fieldsFirst = .ok t₁ ∧
      Shapes.table.declareAll mixed = .ok t₂ ∧ t₁.fieldDecl ⟨4⟩ ≠ t₂.fieldDecl ⟨4⟩ ∧
      SameButNumbers t₁ t₂ [] [.slots Shapes.tile] Shapes.tile ∧
      ∃ symbols, Symbol.proceduresOf t₁ Shapes.tile = .ok symbols := by
  have hmembers : ∀ d ∈ fieldsFirst ++ mixed,
      Shapes.table.AddsMember d ∧ ∀ ty ∈ d.types, Shapes.table.Knows ty := by decide +kernel
  have hsame : Declaration.SameByClass fieldsFirst mixed := by decide +kernel
  have hformals : ∀ m d, Shapes.table.methodDecl m = .ok d → d.container = Shapes.tile →
      ∀ ty ∈ d.formals, Shapes.table.Knows ty := by
    rw [ClassTable.forall_methodDecl_iff]
    decide +kernel
  have hfields : (Shapes.table.declareAll fieldsFirst >>= (·.fieldDecl ⟨4⟩)) ≠
      (Shapes.table.declareAll mixed >>= (·.fieldDecl ⟨4⟩)) := by decide +kernel
  have hok : (Shapes.table.declareAll fieldsFirst).isOk := by decide +kernel
  cases hrun : Shapes.table.declareAll fieldsFirst with
  | error fault =>
    rw [hrun] at hok
    cases hok
  | ok t₁ =>
    obtain ⟨t₂, hrun', hall⟩ :=
      interleaving_shows_in_numbers_only Shapes.reached Shapes.rooted hmembers hsame hrun
    obtain ⟨hnumbers, hsymbols⟩ := hall Shapes.tile (by decide)
    rw [hrun, hrun'] at hfields
    exact ⟨t₁, t₂, rfl, hrun', hfields, hnumbers [] [.slots Shapes.tile], hsymbols hformals⟩

end Layout

end ObjectAbi
