import ObjectAbi.Proofs.ClassTable.KnownTypes
import ObjectAbi.Proofs.Layout.Remembered

/-!
# Layouts by plain recursion

What a layout is, said without anything remembered: the layout of a class is that of the class above
with what the class itself adds, and the root starts from nothing. A layout that remembers gives
just these answers, to any series of queries in any order, and the same as if each query were the
only one.
-/

namespace ObjectAbi.Layout

/-! ## Recursion over the superclass chain -/

section recursion

variable {α : Type} {t : ClassTable} {add : ClassView → List α → List α} {c : ClassId}

/-- The list of a class: the class adds its own to the list of the class above, if there is one. -/
inductive FromRoot (t : ClassTable) (add : ClassView → List α → List α) : ClassId → List α → Prop
  | root {c : ClassId} {v : ClassView} (hv : t.view c = .ok v)
      (hroot : t.superclass c = .ok none) : FromRoot t add c (add v [])
  | heir {c d : ClassId} {v : ClassView} {above : List α} (hv : t.view c = .ok v)
      (hstep : t.Extends c d) (habove : FromRoot t add d above) : FromRoot t add c (add v above)

-- the recursion gives one list, and gives the list of any function that follows it.
theorem fromRoot_iff (h : t.Acyclic) {f : ClassId → Except Fault (List α)}
    (herror : ∀ c fault, t.view c = .error fault → f c = .error fault)
    (hroot : ∀ c v, t.view c = .ok v → v.decl.superclass? = none → f c = .ok (add v []))
    (hheir : ∀ c d v, t.view c = .ok v → t.Extends c d → f c = add v <$> f d) {list : List α} :
    FromRoot t add c list ↔ f c = .ok list := by
  refine ⟨fun hlist ↦ ?_, fun hlist ↦ ?_⟩
  · induction hlist with
    | root hv hnone =>
      rw [ClassTable.superclass_of_view hv, Except.ok.injEq] at hnone
      exact hroot _ _ hv hnone
    | heir hv hstep _ ih =>
      rw [hheir _ _ _ hv hstep, ih]
      rfl
  · revert list
    apply h.induction (motive := fun c ↦ ∀ {list}, f c = .ok list → FromRoot t add c list)
    · intro c fault hv list hlist
      rw [herror c fault hv] at hlist
      cases hlist
    · intro c v hv hnone list hlist
      rw [hroot c v hv hnone] at hlist
      cases hlist
      exact .root hv (by rw [ClassTable.superclass_of_view hv, hnone])
    · intro c v d hv hstep ih list hlist
      rw [hheir c d v hv hstep] at hlist
      cases habove : f d with
      | error fault =>
        rw [habove] at hlist
        cases hlist
      | ok above =>
        rw [habove] at hlist
        cases hlist
        exact .heir hv hstep (ih habove)

/-- The class's own fields of one kind come after those of the class above. -/
def fieldsOver (kind : FieldKind) (v : ClassView) (inherited : List FieldEntry) :
    List FieldEntry :=
  inherited ++ v.fieldsOf kind

theorem fromRoot_fieldsOver_iff (h : t.Acyclic) {kind : FieldKind} {fields : List FieldEntry} :
    FromRoot t (fieldsOver kind) c fields ↔ t.fieldsOf kind c = .ok fields :=
  fromRoot_iff h (f := t.fieldsOf kind) (fun _ _ ↦ h.fieldsOf_of_error)
    (fun _ _ ↦ h.fieldsOf_of_root) (fun _ _ _ ↦ h.fieldsOf_of_extends)

theorem fromRoot_slotsOver_iff (h : t.Acyclic) {slots : List Slot} :
    FromRoot t ClassView.slotsOver c slots ↔ t.slots c = .ok slots :=
  fromRoot_iff h (fun _ _ ↦ h.slots_of_error) (fun _ _ ↦ h.slots_of_root)
    (fun _ _ _ ↦ h.slots_of_extends)

end recursion

/-! ## Queries -/

variable {t : ClassTable}

/-- The answer to a query by plain recursion. -/
inductive PlainAnswer (t : ClassTable) : Query → Answer → Prop
  | fields {kind : FieldKind} {c : ClassId} {fields : List FieldEntry}
      (hfields : FromRoot t (fieldsOver kind) c fields) :
      PlainAnswer t (.fields kind c) (.fields fields)
  | fieldIndex {c : ClassId} {f : FieldId} {fields : List FieldEntry} {i : UInt32}
      (hfields : FromRoot t (fieldsOver .perObject) c fields)
      (hindex : fieldIndex? fields f = some i) :
      PlainAnswer t (.fieldIndex c f) (.fieldIndex i)
  | fieldNotFound {c : ClassId} {f : FieldId} {fields : List FieldEntry} {field : FieldDecl}
      {container : ClassDecl} (hfields : FromRoot t (fieldsOver .perObject) c fields)
      (hindex : fieldIndex? fields f = none) (hfield : t.fieldDecl f = .ok field)
      (hcontainer : t.classDecl c = .ok container) :
      PlainAnswer t (.fieldIndex c f) (.internalError (.fieldNotFound field.name container.name))
  | slots {c : ClassId} {slots : List Slot} (hslots : FromRoot t ClassView.slotsOver c slots) :
      PlainAnswer t (.slots c) (.slots slots)
  | slotIndex {c : ClassId} {m : MethodId} {slots : List Slot}
      (hslots : FromRoot t ClassView.slotsOver c slots) :
      PlainAnswer t (.slotIndex c m) (.slotIndex (slotIndex? slots m))
  | erasedClass {ty : Ty} {context : String} {c : ClassId} (hclass : ty.erasedClass? = some c) :
      PlainAnswer t (.erasedClass ty context) (.erasedClass c)
  | unhandledReferenceType {ty : Ty} {context text : String} (hclass : ty.erasedClass? = none)
      (htext : t.display ty = .ok text) :
      PlainAnswer t (.erasedClass ty context)
        (.internalError (.unhandledReferenceType text context))
  | structName {c : ClassId} {d : ClassDecl} (hd : t.classDecl c = .ok d) :
      PlainAnswer t (.structName c) (.structName (Symbol.classStruct d.name))

theorem answer_of_plainAnswer (h : t.Acyclic) {q : Query} {a : Answer} (ha : PlainAnswer t q a) :
    q.answer t = .ok a := by
  cases ha with
  | fields hfields => exact bind_eq_ok_iff.mpr ⟨_, (fromRoot_fieldsOver_iff h).mp hfields, rfl⟩
  | fieldIndex hfields hindex =>
    refine bind_eq_ok_iff.mpr ⟨_, (fromRoot_fieldsOver_iff h).mp hfields, ?_⟩
    rw [fieldIndexIn, hindex]
    rfl
  | fieldNotFound hfields hindex hfield hcontainer =>
    refine bind_eq_ok_iff.mpr ⟨_, (fromRoot_fieldsOver_iff h).mp hfields, ?_⟩
    rw [fieldIndexIn, hindex]
    exact bind_eq_ok_iff.mpr ⟨_, hfield, bind_eq_ok_iff.mpr ⟨_, hcontainer, rfl⟩⟩
  | slots hslots => exact bind_eq_ok_iff.mpr ⟨_, (fromRoot_slotsOver_iff h).mp hslots, rfl⟩
  | slotIndex hslots => exact bind_eq_ok_iff.mpr ⟨_, (fromRoot_slotsOver_iff h).mp hslots, rfl⟩
  | erasedClass hclass =>
    rw [Query.answer, Layout.erasedClass, hclass]
    rfl
  | unhandledReferenceType hclass htext =>
    rw [Query.answer, Layout.erasedClass, hclass]
    exact bind_eq_ok_iff.mpr ⟨_, htext, rfl⟩
  | structName hd => exact bind_eq_ok_iff.mpr ⟨_, hd, rfl⟩

/-- Everything that the query mentions is declared. -/
def Query.Declared (t : ClassTable) : Query → Prop
  | fields _ c | slots c | structName c => t.Declared c
  | fieldIndex c f => t.Declared c ∧ f.index < t.fields.size
  | slotIndex c m => t.Declared c ∧ m.index < t.methods.size
  | erasedClass ty _ => t.Knows ty

instance (t : ClassTable) : (q : Query) → Decidable (q.Declared t)
  | .fields _ c | .slots c | .structName c => inferInstanceAs (Decidable (t.Declared c))
  | .fieldIndex c f => inferInstanceAs (Decidable (t.Declared c ∧ f.index < t.fields.size))
  | .slotIndex c m => inferInstanceAs (Decidable (t.Declared c ∧ m.index < t.methods.size))
  | .erasedClass ty _ => inferInstanceAs (Decidable (t.Knows ty))

-- every query about declared things has an answer.
theorem exists_plainAnswer (h : t.Rooted) (ht : t.Consistent) {q : Query} (hq : q.Declared t) :
    ∃ a, PlainAnswer t q a := by
  have hfields : ∀ kind c, t.Declared c → ∃ fields, FromRoot t (fieldsOver kind) c fields := by
    intro kind c hc
    obtain ⟨fields, hfields⟩ := (h.complete ht hc).exists_fields kind
    exact ⟨fields, (fromRoot_fieldsOver_iff h.acyclic).mpr hfields⟩
  have hslots : ∀ c, t.Declared c → ∃ slots, FromRoot t ClassView.slotsOver c slots := by
    intro c hc
    obtain ⟨slots, hslots⟩ := (h.complete ht hc).exists_slots
    exact ⟨slots, (fromRoot_slotsOver_iff h.acyclic).mpr hslots⟩
  cases q with
  | fields kind c =>
    obtain ⟨fields, hlist⟩ := hfields kind c hq
    exact ⟨_, .fields hlist⟩
  | fieldIndex c f =>
    obtain ⟨fields, hlist⟩ := hfields .perObject c hq.1
    cases hindex : fieldIndex? fields f with
    | some i => exact ⟨_, .fieldIndex hlist hindex⟩
    | none =>
      obtain ⟨field, hfield⟩ := Arena.exists_get hq.2
      obtain ⟨container, hcontainer⟩ := ClassTable.declared_iff.mp hq.1
      exact ⟨_, .fieldNotFound hlist hindex hfield hcontainer⟩
  | slots c =>
    obtain ⟨slots, hlist⟩ := hslots c hq
    exact ⟨_, .slots hlist⟩
  | slotIndex c m =>
    obtain ⟨slots, hlist⟩ := hslots c hq.1
    exact ⟨_, .slotIndex hlist⟩
  | erasedClass ty context =>
    cases hclass : ty.erasedClass? with
    | some c => exact ⟨_, .erasedClass hclass⟩
    | none =>
      obtain ⟨text, htext⟩ := ClassTable.exists_display ty hq
      exact ⟨_, .unhandledReferenceType hclass htext⟩
  | structName c =>
    obtain ⟨d, hd⟩ := ClassTable.declared_iff.mp hq
    exact ⟨_, .structName hd⟩

theorem exists_answer (h : t.Rooted) (ht : t.Consistent) {q : Query} (hq : q.Declared t) :
    ∃ a, q.answer t = .ok a := by
  obtain ⟨a, ha⟩ := exists_plainAnswer h ht hq
  exact ⟨a, answer_of_plainAnswer h.acyclic ha⟩

/-! ## Series of queries -/

theorem answerAll_of_plainAnswers (h : t.Acyclic) {queries : List Query} {answers : List Answer}
    (hanswers : List.Forall₂ (PlainAnswer t) queries answers) :
    answerAll t queries = ⟨answers, none⟩ := by
  induction hanswers with
  | nil => rfl
  | cons ha hrest ih =>
    rw [answerAll, answer_of_plainAnswer h ha]
    simp only [ih, Transcript.cons]

-- a new layout answers a series of queries as plain recursion does.
theorem run_of_plainAnswers (h : t.Acyclic) {queries : List Query} {answers : List Answer}
    (hanswers : List.Forall₂ (PlainAnswer t) queries answers) :
    ((recallAll t queries).run {}).1 = ⟨answers, none⟩ := by
  obtain ⟨memo, hmemo, -⟩ := run_recallAll h queries Memo.sound_empty
  rw [hmemo, answerAll_of_plainAnswers h hanswers]

/-- A series of queries about declared things is answered to its end. Each answer is the one that a
new layout gives to the query alone, and the only one that plain recursion gives. -/
theorem remembered_answers_are_plain (hreached : t.Reached) (hrooted : t.Rooted)
    {queries : List Query} (hdeclared : ∀ q ∈ queries, q.Declared t) :
    ∃ answers, ((recallAll t queries).run {}).1 = ⟨answers, none⟩ ∧
      List.Forall₂ (fun q a ↦ ((recallAll t [q]).run {}).1 = ⟨[a], none⟩ ∧
        ∀ a', PlainAnswer t q a' ↔ a' = a) queries answers := by
  have hrun := @run_of_plainAnswers t hrooted.acyclic
  obtain ⟨answers, hanswers⟩ := exists_forall₂ fun q hq ↦
    exists_plainAnswer hrooted hreached.consistent (hdeclared q hq)
  refine ⟨answers, hrun hanswers, hanswers.imp fun q a ha ↦ ⟨hrun (.cons ha .nil), ?_⟩⟩
  intro a'
  refine ⟨fun ha' ↦ ?_, fun heq ↦ heq ▸ ha⟩
  have hsame := (answer_of_plainAnswer hrooted.acyclic ha').symm.trans
    (answer_of_plainAnswer hrooted.acyclic ha)
  exact Except.ok.inj hsame

/-- Queries of all kinds that mix classes and lists, some of them about a static field. -/
def mixedQueries : List Query :=
  [.slotIndex Shapes.tile ⟨1⟩, .fieldIndex Shapes.square ⟨2⟩, .fieldIndex Shapes.tile ⟨3⟩,
    .slotIndex Shapes.shape ⟨5⟩, .fieldIndex Shapes.square ⟨2⟩, .fieldIndex Shapes.tile ⟨2⟩]

-- a static field has no position, whichever class it is looked for in
theorem static_field_is_never_found :
    List.Forall₂ (PlainAnswer Shapes.table) mixedQueries
      [.slotIndex (some 2), .internalError (.fieldNotFound "count" "Square"), .fieldIndex 1,
        .slotIndex none, .internalError (.fieldNotFound "count" "Square"),
        .internalError (.fieldNotFound "count" "Tile")] := by
  have hrun : ((recallAll Shapes.table mixedQueries).run {}).1 =
      ⟨[.slotIndex (some 2), .internalError (.fieldNotFound "count" "Square"), .fieldIndex 1,
        .slotIndex none, .internalError (.fieldNotFound "count" "Square"),
        .internalError (.fieldNotFound "count" "Tile")], none⟩ := by
    decide +kernel
  have hdeclared : ∀ q ∈ mixedQueries, q.Declared Shapes.table := by decide +kernel
  obtain ⟨answers, hanswers, hplain⟩ :=
    remembered_answers_are_plain Shapes.reached Shapes.rooted hdeclared
  cases hanswers.symm.trans hrun
  exact hplain.imp fun q a h ↦ (h.2 a).mpr rfl

end ObjectAbi.Layout
