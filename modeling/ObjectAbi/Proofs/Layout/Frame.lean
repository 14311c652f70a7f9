import ObjectAbi.Proofs.Layout.GrownLayouts
import ObjectAbi.Proofs.Layout.PlainRecursion
import ObjectAbi.Proofs.Symbol.ClassNames
import ObjectAbi.Proofs.Symbol.Decoding

/-!
# What a declaration leaves alone

A declaration adds one class, or one member to its container. A layout is worked out from the
members of a class and of the classes above it, so nothing changes for a class that is not the
container and does not inherit from it. In the container itself a new field comes last in the list
of its kind, and a new method takes over one slot, gets a slot at the end, or has none.
-/

namespace ObjectAbi

namespace Layout

variable {t t' : ClassTable} {d : Declaration} {id : DeclaredId} {before before' : List Query}

/-! ## Histories -/

-- what is asked about classes and fields that stay as they are is the same work in both tables.
theorem Query.recall_congr (hlineage : ∀ c, t.Declared c → t'.lineage c = t.lineage c)
    (hclass : ∀ c, t.Declared c → t'.classDecl c = t.classDecl c)
    (hfield : ∀ f : FieldId, f.index < t.fields.size → t'.fieldDecl f = t.fieldDecl f) {q : Query}
    (hq : q.Declared t) : q.recall t' = q.recall t := by
  cases q with
  | fields kind c => simp only [Query.recall, hlineage c hq]
  | fieldIndex c f =>
    simp only [Query.recall, fieldIndexIn, hlineage c hq.1, hclass c hq.1, hfield f hq.2]
  | slots c => simp only [Query.recall, hlineage c hq]
  | slotIndex c m => simp only [Query.recall, hlineage c hq.1]
  | erasedClass ty context =>
    have htext : t'.display ty = t.display ty := ClassTable.display_congr ty fun c hc ↦
      congrArg (ClassDecl.name <$> ·) (hclass c (hq c hc))
    simp only [Query.recall, Layout.erasedClass, htext]
  | structName c => simp only [Query.recall, Layout.structName, hclass c hq]

-- what a layout of the grown table was asked before does not show in its answers. A new class may
-- inherit from itself; earlier queries are then about what was there before.
theorem answerAfter_of_declare (h : t.Rooted) (ht : t.Consistent) (hd : t.declare d = .ok (id, t'))
    (hbefore : t'.Acyclic ∨ ∀ q ∈ before', q.Declared t) {q : Query} (hq : q.Declared t)
    (hanswer : q.answer t' = q.answer t) : answerAfter t' before' q = q.answer t := by
  by_cases hacyclic : t'.Acyclic
  · exact (answerAfter_eq_answer hacyclic before' q).trans hanswer
  · cases he : d.container? with
    | some e => exact absurd (h.declare hd he).acyclic hacyclic
    | none =>
      have hgains : t.Gains t' [] [] := by
        cases d with
        | newClass name modifiers superclass typeParams => exact ClassTable.gains_of_declare hd
        | _ => cases he
      have hlineage : ∀ c, t.Declared c → t'.lineage c = t.lineage c := fun c hc ↦
        h.lineage_of_declare hd ht hc fun e he' ↦ by cases he.symm.trans he'
      have hrecall : ∀ q : Query, q.Declared t → q.recall t' = q.recall t := fun q ↦
        Query.recall_congr hlineage (fun c ↦ hgains.classDecl_eq) fun f ↦ hgains.fieldDecl_eq
      have hmemo : memoAfter t' before' = memoAfter t before' := by
        have hdeclared := hbefore.resolve_left hacyclic
        rw [memoAfter, memoAfter, recallAll, recallAll,
          runAll_congr fun q hq ↦ hrecall q (hdeclared q hq)]
      rw [answerAfter, hrecall q hq, hmemo]
      exact answerAfter_eq_answer h.acyclic before' q

/-! ## What a declaration leaves alone -/

/-- All answers about the place of a class in the hierarchy and about its layout are given in both
tables, and are the same. -/
structure ClassUndisturbed (t t' : ClassTable) (before before' : List Query) (c : ClassId) :
    Prop where
  superclass : Agree (t.superclass c) (t'.superclass c)
  isSubclass : ∀ d, Agree (t.isSubclass c d) (t'.isSubclass c d)
  findField : ∀ name, Agree (t.findField c name) (t'.findField c name)
  fields : ∀ kind,
    Agree (answerAfter t before (.fields kind c)) (answerAfter t' before' (.fields kind c))
  slots : Agree (answerAfter t before (.slots c)) (answerAfter t' before' (.slots c))

theorem classUndisturbed_of_declare (h : t.Rooted) (ht : t.Consistent)
    (hd : t.declare d = .ok (id, t')) (hbefore : t'.Acyclic ∨ ∀ q ∈ before', q.Declared t)
    {c : ClassId} (hc : t.Declared c) (hapart : ∀ e, d.container? = some e → ¬ t.Inherits c e) :
    ClassUndisturbed t t' before before' c := by
  have hlineage := h.lineage_of_declare hd ht hc hapart
  have hagree : ∀ q : Query, q.Declared t → q.answer t' = q.answer t →
      Agree (answerAfter t before q) (answerAfter t' before' q) := by
    intro q hq hanswer
    rw [answerAfter_eq_answer h.acyclic, answerAfter_of_declare h ht hd hbefore hq hanswer]
    exact .of_eq (exists_answer h ht hq) rfl
  refine ⟨?_, fun e ↦ ?_, fun name ↦ ?_, fun kind ↦ hagree _ hc ?_, hagree _ hc ?_⟩
  · obtain ⟨decl, hdecl⟩ := ClassTable.declared_iff.mp hc
    exact .of_eq ⟨_, bind_eq_ok_iff.mpr ⟨decl, hdecl, rfl⟩⟩
      ((ClassTable.gains_of_declare hd).superclass hc)
  · obtain ⟨b, hb, -⟩ := h.exists_isSubclass ht hc e
    exact .of_eq ⟨b, hb⟩ (by rw [ClassTable.isSubclass, hlineage, ClassTable.isSubclass])
  · refine .of_eq ⟨_, (h.complete ht hc).findField_eq name⟩ ?_
    rw [ClassTable.findField, hlineage, ClassTable.findField]
  · simp only [Query.answer, ClassTable.fieldsOf, hlineage]
  · simp only [Query.answer, ClassTable.slots, hlineage]

/-- Every procedure and every field of the first table is declared in both, and has one symbol. -/
structure SymbolsKept (t t' : ClassTable) : Prop where
  procedures : ∀ m d, t.methodDecl m = .ok d →
    t'.methodDecl m = .ok d ∧ Agree (Symbol.procedure t d) (Symbol.procedure t' d)
  fields : ∀ f d, t.fieldDecl f = .ok d →
    t'.fieldDecl f = .ok d ∧ Agree (Symbol.staticField t d) (Symbol.staticField t' d)

theorem symbolsKept_of_declare (ht : t.Consistent) (hd : t.declare d = .ok (id, t'))
    (hformals : ∀ m d, t.methodDecl m = .ok d → ∀ ty ∈ d.formals, t.Knows ty) :
    SymbolsKept t t' := by
  have hgains := ClassTable.gains_of_declare hd
  refine ⟨fun m decl hm ↦ ⟨hgains.methodDecl hm, ?_⟩, fun f decl hf ↦ ⟨hgains.fieldDecl hf, ?_⟩⟩
  · have hcontainer := ht.methods.container_lt (Arena.get_eq_ok_iff.mp hm)
    obtain ⟨c, codes, -, -, hsymbol⟩ := Symbol.exists_procedure ht hm (hformals m decl hm)
    refine .of_eq ⟨_, hsymbol⟩ (Symbol.procedure_congr (hgains.className hcontainer) ?_)
    exact fun ty hty c hc ↦
      hgains.className (Symbol.declared_of_shownClass ht (hformals m decl hm ty hty) hc)
  · have hcontainer := ht.fields.container_lt (Arena.get_eq_ok_iff.mp hf)
    obtain ⟨c, -, hsymbol⟩ := Symbol.exists_staticField ht hf
    exact .of_eq ⟨_, hsymbol⟩ (Symbol.staticField_congr (hgains.className hcontainer))

/-! ## What changes in the container -/

/-- A field was declared. It comes last in the list of its kind of its container; the other list
and the slots of the container are as before. -/
structure FieldAppended (t t' : ClassTable) (before before' : List Query) (f : FieldEntry) :
    Prop where
  isNew : f.id.index = t.fields.size
  known : t'.fieldDecl f.id = .ok f.decl
  list : ∃ listed : List FieldEntry,
    answerAfter t before (.fields f.decl.kind f.decl.container) = .ok (.fields listed) ∧
    answerAfter t' before' (.fields f.decl.kind f.decl.container) = .ok (.fields (listed ++ [f]))
  otherList : ∀ kind, kind ≠ f.decl.kind →
    Agree (answerAfter t before (.fields kind f.decl.container))
      (answerAfter t' before' (.fields kind f.decl.container))
  slots : Agree (answerAfter t before (.slots f.decl.container))
    (answerAfter t' before' (.slots f.decl.container))

/-- A procedure was declared. Both field lists of its container are as before, and so are the slots
unless it is virtual; then it took over one of them or got one at the end. -/
structure MethodPlaced (t t' : ClassTable) (before before' : List Query) (m : MethodEntry) :
    Prop where
  isNew : m.id.index = t.methods.size
  known : t'.methodDecl m.id = .ok m.decl
  fields : ∀ kind, Agree (answerAfter t before (.fields kind m.decl.container))
    (answerAfter t' before' (.fields kind m.decl.container))
  slots : ∃ slots slots' : List Slot,
    answerAfter t before (.slots m.decl.container) = .ok (.slots slots) ∧
    answerAfter t' before' (.slots m.decl.container) = .ok (.slots slots') ∧
    (¬ m.decl.isVirtual → slots' = slots) ∧ (m.decl.isVirtual → Slot.Placed m slots slots')

/-- What a declaration changes in its container. -/
def MemberAdded (t t' : ClassTable) (before before' : List Query) :
    Declaration → DeclaredId → Prop
  | .newClass _ _ _ _, .newClass _ => True
  | .field container name ty modifiers, .field f =>
    FieldAppended t t' before before' ⟨f, name, container, ty, modifiers⟩
  | .method container name modifiers formals result, .method m =>
    MethodPlaced t t' before before' ⟨m, name, container, modifiers, .method, formals, result⟩
  | .constructor container modifiers formals, .method m =>
    MethodPlaced t t' before before' ⟨m, .ofConstructor container modifiers formals⟩
  | _, _ => False

section container

variable (h : t.Rooted) (ht : t.Consistent) (hd : t.declare d = .ok (id, t')) {e : ClassId}

include h ht hd

theorem fields_of_container (he : d.container? = some e) (kind : FieldKind) :
    ∃ listed, answerAfter t before (.fields kind e) = .ok (.fields listed) ∧
      answerAfter t' before' (.fields kind e) =
        .ok (.fields (listed ++ (d.newFields id).filter fun f ↦ f.decl.kind = kind)) := by
  have hc := (ClassTable.container_of_declare hd he).1
  obtain ⟨listed, hlisted⟩ := (h.complete ht hc).exists_fields kind
  have hlist : t.fieldsOf kind e = .ok listed := hlisted
  have hgrown := h.fieldsOf_of_container hd ht he kind
  rw [hlist] at hgrown
  rw [answerAfter_eq_answer h.acyclic, answerAfter_eq_answer (h.declare hd he).acyclic]
  exact ⟨listed, bind_eq_ok_iff.mpr ⟨_, hlist, rfl⟩, bind_eq_ok_iff.mpr ⟨_, hgrown, rfl⟩⟩

theorem slots_of_container (he : d.container? = some e) :
    ∃ slots, answerAfter t before (.slots e) = .ok (.slots slots) ∧
      answerAfter t' before' (.slots e) =
        .ok (.slots
          (((d.newMethods id).filter fun m ↦ m.decl.isVirtual).foldl Slot.place slots)) := by
  have hc := (ClassTable.container_of_declare hd he).1
  obtain ⟨slots, hfound⟩ := (h.complete ht hc).exists_slots
  have hslots : t.slots e = .ok slots := hfound
  have hgrown := h.slots_of_container hd ht he
  rw [hslots] at hgrown
  rw [answerAfter_eq_answer h.acyclic, answerAfter_eq_answer (h.declare hd he).acyclic]
  exact ⟨slots, bind_eq_ok_iff.mpr ⟨_, hslots, rfl⟩, bind_eq_ok_iff.mpr ⟨_, hgrown, rfl⟩⟩

theorem fieldAppended_of_declare {f : FieldEntry} (hf : d.newFields id = [f])
    (hm : d.newMethods id = []) : FieldAppended t t' before before' f := by
  have hmem : f ∈ d.newFields id := hf ▸ List.mem_singleton_self f
  have he := Declaration.container?_of_mem_newFields hmem
  refine ⟨ClassTable.index_of_newField hd hmem, (ClassTable.gains_of_declare hd).newField f hmem,
    ?_, fun kind hkind ↦ ?_, ?_⟩
  · obtain ⟨listed, hbefore, hafter⟩ := fields_of_container h ht hd he f.decl.kind
    exact ⟨listed, hbefore, by simpa [hf] using hafter⟩
  · obtain ⟨listed, hbefore, hafter⟩ := fields_of_container h ht hd he kind
    exact ⟨_, hbefore, by simpa [hf, hkind.symm] using hafter⟩
  · obtain ⟨slots, hbefore, hafter⟩ := slots_of_container h ht hd he
    exact ⟨_, hbefore, by simpa [hm] using hafter⟩

theorem methodPlaced_of_declare {m : MethodEntry} (hm : d.newMethods id = [m])
    (hf : d.newFields id = []) : MethodPlaced t t' before before' m := by
  have hmem : m ∈ d.newMethods id := hm ▸ List.mem_singleton_self m
  have he := Declaration.container?_of_mem_newMethods hmem
  refine ⟨ClassTable.index_of_newMethod hd hmem,
    (ClassTable.gains_of_declare hd).newMethod m hmem, fun kind ↦ ?_, ?_⟩
  · obtain ⟨listed, hbefore, hafter⟩ := fields_of_container h ht hd he kind
    exact ⟨_, hbefore, by simpa [hf] using hafter⟩
  · obtain ⟨slots, hbefore, hafter⟩ := slots_of_container h ht hd he
    refine ⟨slots, _, hbefore, hafter, fun hvirtual ↦ ?_, fun hvirtual ↦ ?_⟩
    · simp [hm, hvirtual]
    · simp only [hm, hvirtual, List.filter_cons_of_pos, List.filter_nil, List.foldl_cons,
        List.foldl_nil]
      exact Slot.placed_place m slots

theorem memberAdded_of_declare : MemberAdded t t' before before' d id := by
  obtain ⟨name, modifiers, superclass, typeParams, c, rfl, rfl, -⟩ | ⟨decl, f, rfl, rfl, -⟩ |
    ⟨decl, m, hdecl, rfl, -⟩ := ClassTable.declare_cases hd
  · trivial
  · exact fieldAppended_of_declare h ht hd rfl rfl
  · obtain ⟨rfl, -⟩ | ⟨container, modifiers, formals, rfl, -⟩ := hdecl
    · exact methodPlaced_of_declare h ht hd rfl rfl
    · exact methodPlaced_of_declare h ht hd rfl rfl

end container

/-- A declaration changes nothing for a declared class that is not its container and does not
inherit from it, no symbol of what was declared before, and in its container one list of fields or
at most one slot. A layout of the grown table may have been asked anything before; if the new class
inherits from itself, anything about what was there already. -/
theorem declaration_changes_container_only (hreached : t.Reached) (hrooted : t.Rooted)
    (hformals : ∀ m d, t.methodDecl m = .ok d → ∀ ty ∈ d.formals, t.Knows ty)
    (hdeclare : t.declare d = .ok (id, t')) (before before' : List Query)
    (hbefore : t'.Acyclic ∨ ∀ q ∈ before', q.Declared t) :
    (∀ c, t.Declared c → (∀ e, d.container? = some e → ¬ t.Inherits c e) →
      ClassUndisturbed t t' before before' c) ∧
    SymbolsKept t t' ∧ MemberAdded t t' before before' d id := by
  have ht := hreached.consistent
  exact ⟨fun c hc ↦ classUndisturbed_of_declare hrooted ht hdeclare hbefore hc,
    symbolsKept_of_declare ht hdeclare hformals, memberAdded_of_declare hrooted ht hdeclare⟩

/-- A method that squares do not have yet: the one of that name is private. -/
def areaOfSquare : MethodDecl := ⟨"area", Shapes.square, {}, .method, [], .int⟩

def newArea : Declaration := .method Shapes.square "area" {} [] .int

-- a tile is a square, so its slots may change, and a shape is above both
theorem new_area_of_square_leaves_shape :
    ∃ m t', Shapes.table.declare newArea = .ok (.method m, t') ∧
      ClassUndisturbed Shapes.table t' [] [.slots Shapes.tile] Shapes.shape ∧
      ∃ slots slots' : List Slot,
        answerAfter Shapes.table [] (.slots Shapes.square) = .ok (.slots slots) ∧
        answerAfter t' [.slots Shapes.tile] (.slots Shapes.square) = .ok (.slots slots') ∧
        Slot.Placed ⟨m, areaOfSquare⟩ slots slots' := by
  have hok : (Shapes.table.declare newArea).isOk := by decide +kernel
  have hformals : ∀ m d, Shapes.table.methodDecl m = .ok d → ∀ ty ∈ d.formals,
      Shapes.table.Knows ty := by
    rw [ClassTable.forall_methodDecl_iff]
    decide +kernel
  have hapart : ¬ Shapes.table.Inherits Shapes.shape Shapes.square := by
    rw [← Shapes.rooted.isSubclass_iff Shapes.reached.consistent (by decide)]
    decide +kernel
  have hvirtual : areaOfSquare.isVirtual := by decide
  cases hdeclare : Shapes.table.declare newArea with
  | error fault =>
    rw [hdeclare] at hok
    cases hok
  | ok result =>
    obtain ⟨id, t'⟩ := result
    have hacyclic := (Shapes.rooted.declare hdeclare rfl).acyclic
    obtain ⟨hother, -, hadded⟩ := declaration_changes_container_only Shapes.reached Shapes.rooted
      hformals hdeclare [] [.slots Shapes.tile] (.inl hacyclic)
    have hshape := hother Shapes.shape (by decide) fun e he ↦ Option.some.inj he ▸ hapart
    cases id with
    | method m =>
      obtain ⟨slots, slots', hbefore, hafter, -, hplaced⟩ := hadded.slots
      exact ⟨m, t', rfl, hshape, slots, slots', hbefore, hafter, hplaced hvirtual⟩
    | newClass c => exact hadded.elim
    | field f => exact hadded.elim

end Layout

end ObjectAbi
