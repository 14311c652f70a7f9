import ObjectAbi.Proofs.ClassTable.Walks
import ObjectAbi.Proofs.Layout.PlainRecursion

/-!
# Walks that come to an end

What a class inherits is found on a walk up from the class, and a walk knows no bound: it goes on
until it has found something, stands at the root, or cannot look a class up. A class may be declared
before the class it inherits from, and that one may never be declared, so identifiers tell nothing
about how far a walk has come. On a table where no class inherits from itself every walk still comes
to an end, because it never looks up a class twice.
-/

namespace ObjectAbi

/-! ## Walks -/

/-- A walk up from a class: where it stops, and what it makes of the classes that it passes. -/
structure Walk (β : Type) where
  /-- What is known of a class without looking it up. -/
  known : ClassId → Option β
  /-- What the walk looks for, if the class has it. -/
  found : ClassView → Option β
  /-- What there is above the root. -/
  start : β
  /-- What the walk gives at a class, from what it gives at the class above. -/
  step : ClassView → β → β

namespace Walk

variable {β : Type} {w : Walk β} {t : ClassTable} {c d : ClassId} {passed : List ClassId}
  {outcome : Except Fault β}

/-- The walk from a class: the classes that it looks up, the lowest first, and its outcome. -/
inductive Run (w : Walk β) (t : ClassTable) : ClassId → List ClassId → Except Fault β → Prop
  | known {c : ClassId} {result : β} (hknown : w.known c = some result) :
      Run w t c [] (.ok result)
  | broken {c : ClassId} {fault : Fault} (hknown : w.known c = none)
      (hv : t.view c = .error fault) : Run w t c [] (.error fault)
  | found {c : ClassId} {v : ClassView} {result : β} (hknown : w.known c = none)
      (hv : t.view c = .ok v) (hfound : w.found v = some result) : Run w t c [c] (.ok result)
  | root {c : ClassId} {v : ClassView} (hknown : w.known c = none) (hv : t.view c = .ok v)
      (hfound : w.found v = none) (hroot : t.superclass c = .ok none) :
      Run w t c [c] (.ok (w.step v w.start))
  | heir {c d : ClassId} {v : ClassView} {passed : List ClassId} {outcome : Except Fault β}
      (hknown : w.known c = none) (hv : t.view c = .ok v) (hfound : w.found v = none)
      (hstep : t.Extends c d) (habove : Run w t d passed outcome) :
      Run w t c (c :: passed) (w.step v <$> outcome)

theorem Run.isChain (h : w.Run t c passed outcome) :
    passed.IsChain t.Extends ∧ ∀ a ∈ passed.head?, a = c := by
  induction h with
  | known | broken => exact ⟨.nil, by simp⟩
  | found | root => exact ⟨.singleton _, by simp⟩
  | heir _ _ _ hstep _ ih =>
    refine ⟨List.isChain_cons.mpr ⟨fun a ha ↦ ?_, ih.1⟩, by simp⟩
    rw [ih.2 a ha]
    exact hstep

theorem Run.declared (h : w.Run t c passed outcome) : ∀ a ∈ passed, t.Declared a := by
  induction h with
  | known | broken => simp
  | found _ hv | root _ hv =>
    intro a ha
    rw [List.mem_singleton.mp ha]
    exact ClassTable.declared_of_view hv
  | heir _ hv _ _ _ ih =>
    exact List.forall_mem_cons.mpr ⟨ClassTable.declared_of_view hv, ih⟩

theorem Run.inherits (h : w.Run t c passed outcome) : ∀ a ∈ passed, t.Inherits c a := by
  induction h with
  | known | broken => simp
  | found | root =>
    intro a ha
    rw [List.mem_singleton.mp ha]
  | heir _ _ _ hstep _ ih =>
    exact List.forall_mem_cons.mpr ⟨.refl, fun a ha ↦ .head hstep (ih a ha)⟩

-- a walk breaks off at a class only that is not declared.
theorem Run.exists_undeclared (ht : t.Consistent) (h : w.Run t c passed outcome) {fault : Fault}
    (hfault : outcome = .error fault) :
    ∃ a, t.Inherits c a ∧ ¬ t.Declared a ∧ fault = .outOfRange t.classes.size a.index := by
  induction h with
  | known | found | root => cases hfault
  | @broken c _ _ hv =>
    cases hfault
    exact ⟨c, .refl, ht.view_eq_error_iff.mp hv⟩
  | @heir _ _ _ _ outcome _ _ _ hstep _ ih =>
    cases outcome with
    | ok result => cases hfault
    | error fault' =>
      cases hfault
      obtain ⟨a, hinherits, ha⟩ := ih rfl
      exact ⟨a, .head hstep hinherits, ha⟩

/-- At every class there is one way only for the walk to go on. -/
theorem Run.unique {passed' : List ClassId} {outcome' : Except Fault β}
    (h : w.Run t c passed outcome) (h' : w.Run t c passed' outcome') :
    passed = passed' ∧ outcome = outcome' := by
  induction h generalizing passed' outcome' with
  | known => cases h' <;> grind
  | broken => cases h' <;> grind
  | found => cases h' <;> grind
  | root => cases h' <;> grind [ClassTable.Extends]
  | heir => cases h' <;> grind [ClassTable.Extends]

/-! ## What a walk gives -/

/-- The function gives what the walk does, step by step. -/
structure Gives (w : Walk β) (t : ClassTable) (f : ClassId → Except Fault β) : Prop where
  known : ∀ {c result}, w.known c = some result → f c = .ok result
  broken : ∀ {c fault}, w.known c = none → t.view c = .error fault → f c = .error fault
  found : ∀ {c v result}, w.known c = none → t.view c = .ok v → w.found v = some result →
    f c = .ok result
  root : ∀ {c v}, w.known c = none → t.view c = .ok v → w.found v = none →
    v.decl.superclass? = none → f c = .ok (w.step v w.start)
  heir : ∀ {c d v}, w.known c = none → t.view c = .ok v → w.found v = none → t.Extends c d →
    f c = w.step v <$> f d

variable {f : ClassId → Except Fault β}

theorem Gives.exists_run (hf : w.Gives t f) (h : t.Acyclic) (c : ClassId) :
    ∃ passed, w.Run t c passed (f c) := by
  have hstop : ∀ {c result}, w.known c = some result → ∃ passed, w.Run t c passed (f c) :=
    fun hknown ↦ ⟨[], by rw [hf.known hknown]; exact .known hknown⟩
  have hhit : ∀ {c v result}, w.known c = none → t.view c = .ok v → w.found v = some result →
      ∃ passed, w.Run t c passed (f c) := fun {c _ _} hknown hv hfound ↦
    ⟨[c], by rw [hf.found hknown hv hfound]; exact .found hknown hv hfound⟩
  apply h.induction (motive := fun c ↦ ∃ passed, w.Run t c passed (f c))
  · intro c fault hv
    cases hknown : w.known c with
    | some result => exact hstop hknown
    | none => exact ⟨[], by rw [hf.broken hknown hv]; exact .broken hknown hv⟩
  · intro c v hv hd
    cases hknown : w.known c with
    | some result => exact hstop hknown
    | none =>
      cases hfound : w.found v with
      | some result => exact hhit hknown hv hfound
      | none =>
        have hroot : t.superclass c = .ok none := by rw [ClassTable.superclass_of_view hv, hd]
        exact ⟨[c], by rw [hf.root hknown hv hfound hd]; exact .root hknown hv hfound hroot⟩
  · intro c v d hv hstep ih
    cases hknown : w.known c with
    | some result => exact hstop hknown
    | none =>
      cases hfound : w.found v with
      | some result => exact hhit hknown hv hfound
      | none =>
        obtain ⟨passed, habove⟩ := ih
        exact ⟨c :: passed, by
          rw [hf.heir hknown hv hfound hstep]; exact .heir hknown hv hfound hstep habove⟩

/-- The walk from a class comes to an end with this outcome, and there is no other walk. It looks up
declared classes only, no class twice, and breaks off only at a class that is not declared. -/
structure Ends (w : Walk β) (t : ClassTable) (c : ClassId) (outcome : Except Fault β)
    (passed : List ClassId) : Prop where
  run : w.Run t c passed outcome
  only : ∀ {passed' outcome'}, w.Run t c passed' outcome' → passed' = passed ∧ outcome' = outcome
  nodup : passed.Nodup
  declared : ∀ a ∈ passed, t.Declared a ∧ t.Inherits c a
  length_le : passed.length ≤ t.classes.size
  undeclared : ∀ fault, outcome = .error fault →
    ∃ a, t.Inherits c a ∧ ¬ t.Declared a ∧ fault = .outOfRange t.classes.size a.index

theorem Gives.exists_ends (hf : w.Gives t f) (ht : t.Consistent) (h : t.Acyclic) (c : ClassId) :
    ∃ passed, w.Ends t c (f c) passed := by
  obtain ⟨passed, hrun⟩ := hf.exists_run h c
  have hnodup := h.nodup_of_isChain hrun.isChain.1
  exact ⟨passed, hrun, fun hother ↦ hother.unique hrun, hnodup,
    fun a ha ↦ ⟨hrun.declared a ha, hrun.inherits a ha⟩,
    Ident.length_le_of_nodup hnodup hrun.declared, fun _ ↦ hrun.exists_undeclared ht⟩

/-! ## The walks that answer queries -/

/-- Stops at the class itself, before it is looked up. -/
def subclass (sup : ClassId) : Walk Bool where
  known c := if c = sup then some true else none
  found _ := none
  start := false
  step _ result := result

/-- Stops at the lowest class with a field of the name. -/
def field (name : String) : Walk (Option FieldId) where
  known _ := none
  found v := (v.field? name).map some
  start := none
  step _ result := result

/-- Stops at a class whose fields are remembered, and otherwise puts them after those above. -/
def fields (memo : Layout.Memo) (kind : FieldKind) : Walk (List FieldEntry) where
  known := memo.fields? kind
  found _ := none
  start := []
  step := Layout.fieldsOver kind

/-- Stops at a class whose slots are remembered, and otherwise works them out of those above. -/
def slots (memo : Layout.Memo) : Walk (List Slot) where
  known := memo.slots?
  found _ := none
  start := []
  step := ClassView.slotsOver

theorem gives_isSubclass (h : t.Acyclic) (sup : ClassId) :
    (subclass sup).Gives t (t.isSubclass · sup) := by
  have hne : ∀ {c}, (subclass sup).known c = none → c ≠ sup := fun hknown ↦ by
    simpa [subclass] using hknown
  refine ⟨fun {c result} hknown ↦ ?_, fun {c fault} hknown hv ↦ ?_, nofun,
    fun {c v} hknown hv _ hd ↦ ?_, fun {c d v} hknown hv _ hstep ↦ ?_⟩
  · obtain ⟨rfl, rfl⟩ : c = sup ∧ true = result := by simpa [subclass] using hknown
    exact ClassTable.isSubclass_self t c
  · simp [ClassTable.isSubclass, h.lineage_of_error hv, Lineage.meets, hne hknown]
  · have hid := ClassTable.id_of_view hv
    simp [ClassTable.isSubclass, h.lineage_of_root hv hd, Lineage.meets, hid, hne hknown, subclass]
  · have hid := ClassTable.id_of_view hv
    simp [ClassTable.isSubclass, h.lineage_of_extends hv hstep, Lineage.meets, hid, hne hknown,
      subclass]

theorem gives_findField (h : t.Acyclic) (name : String) :
    (field name).Gives t (t.findField · name) where
  known := nofun
  broken _ hv := by simp [ClassTable.findField, h.lineage_of_error hv, Lineage.findField]
  found := by
    intro c v result _ hv hfound
    obtain ⟨f, hf, rfl⟩ : ∃ f, v.field? name = some f ∧ some f = result := by
      simpa [field] using hfound
    cases hd : v.decl.superclass? with
    | none => simp [ClassTable.findField, h.lineage_of_root hv hd, Lineage.findField, hf]
    | some d =>
      have hstep := (ClassTable.extends_iff_of_view hv).mpr hd
      simp [ClassTable.findField, h.lineage_of_extends hv hstep, Lineage.findField, hf]
  root := by
    intro c v _ hv hfound hd
    have hf : v.field? name = none := by simpa [field] using hfound
    simp [ClassTable.findField, h.lineage_of_root hv hd, Lineage.findField, hf, field]
  heir := by
    intro c d v _ hv hfound hstep
    have hf : v.field? name = none := by simpa [field] using hfound
    simp [ClassTable.findField, h.lineage_of_extends hv hstep, Lineage.findField, hf, field]

-- a memo only speeds a walk up: what it knows of a class is what the walk would come to.
theorem gives_fieldsOf (h : t.Acyclic) {memo : Layout.Memo} (hmemo : memo.Sound t)
    (kind : FieldKind) : (fields memo kind).Gives t (t.fieldsOf kind) where
  known := hmemo.fields
  broken _ := h.fieldsOf_of_error
  found := nofun
  root _ hv _ := h.fieldsOf_of_root hv
  heir _ hv _ := h.fieldsOf_of_extends hv

theorem gives_slots (h : t.Acyclic) {memo : Layout.Memo} (hmemo : memo.Sound t) :
    (slots memo).Gives t t.slots where
  known := hmemo.slots
  broken _ := h.slots_of_error
  found := nofun
  root _ hv _ := h.slots_of_root hv
  heir _ hv _ := h.slots_of_extends hv

end Walk

open Layout

/-- Where no class inherits from itself, the test for subclasses, the look-up of a field and the
recursions behind field lists and dispatch slots come to an end for every class, declared or not,
and whatever a layout remembers from earlier queries. -/
theorem walks_end {t : ClassTable} (hreached : t.Reached) (hacyclic : t.Acyclic) (c : ClassId) :
    (∀ sup, ∃ passed, (Walk.subclass sup).Ends t c (t.isSubclass c sup) passed) ∧
      (∀ name, ∃ passed, (Walk.field name).Ends t c (t.findField c name) passed) ∧
      ∀ before,
        (∀ kind, ∃ passed, (Walk.fields (memoAfter t before) kind).Ends t c
          ((fieldsIn kind (t.lineage c)).run.run (memoAfter t before)).1 passed) ∧
        ∃ passed, (Walk.slots (memoAfter t before)).Ends t c
          ((slotsIn (t.lineage c)).run.run (memoAfter t before)).1 passed := by
  have ht := hreached.consistent
  refine ⟨fun sup ↦ (Walk.gives_isSubclass hacyclic sup).exists_ends ht hacyclic c,
    fun name ↦ (Walk.gives_findField hacyclic name).exists_ends ht hacyclic c, fun before ↦ ?_⟩
  have hmemo := sound_memoAfter hacyclic before
  refine ⟨fun kind ↦ ?_, ?_⟩
  · obtain ⟨after, hrun, -⟩ := faithful_fieldsIn hacyclic kind c _ hmemo
    rw [hrun]
    exact (Walk.gives_fieldsOf hacyclic hmemo kind).exists_ends ht hacyclic c
  · obtain ⟨after, hrun, -⟩ := faithful_slotsIn hacyclic c _ hmemo
    rw [hrun]
    exact (Walk.gives_slots hacyclic hmemo).exists_ends ht hacyclic c

/-! ## A way up that leads out of the table -/

namespace Stray

def leaf : ClassId := ⟨3⟩
def branch : ClassId := ⟨4⟩
def missing : ClassId := ⟨9⟩

/-- Leaves are declared before branches, and branches inherit from a class that never is. -/
def table : ClassTable := .ofDeclarations
  [.newClass "Leaf" {} (some (.classType branch [.int])) [],
    .newClass "Branch" {} (some (.parameter "T" (some (.ofClass missing)))) ["T"],
    .field branch "size" .int {},
    .method leaf "fall" {} [] .void]

-- every walk that passes the branch breaks off there, also after others that did
theorem walks_break_off_at_missing_class :
    (∃ passed, (Walk.subclass missing).Ends table leaf (.ok true) passed) ∧
      (∃ passed, (Walk.field "size").Ends table leaf (.ok (some ⟨1⟩)) passed) ∧
      (∃ passed, (Walk.field "fall").Ends table leaf (.error (.outOfRange 5 9)) passed) ∧
      (∃ passed, (Walk.fields (memoAfter table [.slots leaf]) .perObject).Ends table leaf
        (.error (.outOfRange 5 9)) passed) ∧
      ∃ passed, (Walk.slots (memoAfter table [.slots leaf])).Ends table leaf
        (.error (.outOfRange 5 9)) passed := by
  have hacyclic : table.Acyclic := ClassTable.acyclic_ofDeclarations (by decide +kernel)
  obtain ⟨hsubclass, hfield, hlayout⟩ :=
    walks_end (ClassTable.reached_ofDeclarations _) hacyclic leaf
  obtain ⟨hfields, hslots⟩ := hlayout [.slots leaf]
  have hmissing : table.isSubclass leaf missing = .ok true := by decide +kernel
  have hsize : table.findField leaf "size" = .ok (some ⟨1⟩) := by decide +kernel
  have hfall : table.findField leaf "fall" = .error (.outOfRange 5 9) := by decide +kernel
  have hlist : ((fieldsIn .perObject (table.lineage leaf)).run.run
      (memoAfter table [.slots leaf])).1 = .error (.outOfRange 5 9) := by decide +kernel
  have hvector : ((slotsIn (table.lineage leaf)).run.run (memoAfter table [.slots leaf])).1 =
      .error (.outOfRange 5 9) := by decide +kernel
  exact ⟨hmissing ▸ hsubclass missing, hsize ▸ hfield "size", hfall ▸ hfield "fall",
    hlist ▸ hfields .perObject, hvector ▸ hslots⟩

end Stray

end ObjectAbi
