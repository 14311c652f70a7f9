import ObjectAbi.Proofs.ClassTable.Walks
import ObjectAbi.Proofs.Layout.PlainRecursion
import ObjectAbi.Proofs.Symbol.Decoding
import ObjectAbi.Session.Request

/-!
# Closed tables

A declaration is carried out whatever classes its types mention, so a table can speak of classes
that it does not have, and a question that comes across one of them ends in a fault. On a closed
table every class that is mentioned is declared, at whatever depth of a type and whether before or
after the mention. If moreover no class inherits from itself, every question about declared things
is answered.
-/

namespace ObjectAbi

namespace ClassTable

variable {t : ClassTable} {ty : Ty}

-- erasing a type brings no class into it but the root.
theorem Knows.erase (h : t.Knows ty) (ht : t.Consistent) : t.Knows ty.erase := by
  induction ty using Ty.erase.induct with
  | case1 c args =>
    intro d hd
    obtain rfl : d = c := by simpa [Ty.erase, Ty.ofClass, Ty.parts, Ty.partsAll, Ty.head?] using hd
    exact h.classType
  | case2 name =>
    intro d hd
    obtain rfl : d = Builtin.object := by
      simpa [Ty.erase, Ty.ofClass, Ty.parts, Ty.partsAll, Ty.head?] using hd
    exact ht.declared_builtin (by decide)
  | case3 name bound ih => exact ih (h.of_subset (Ty.parts_bound_subset name bound))
  | case4 element ih =>
    have helement := ih (h.of_subset (Ty.parts_element_subset element))
    intro d hd
    rw [Ty.erase, Ty.parts, List.filterMap_cons] at hd
    exact helement d hd
  | case5 | case6 | case7 => exact h

/-- Every class that a declaration in the table mentions is declared. -/
structure Closed (t : ClassTable) : Prop where
  superclass : ∀ c d, t.classDecl c = .ok d → ∀ ty ∈ d.superclass, t.Knows ty
  field : ∀ f d, t.fieldDecl f = .ok d → t.Knows d.ty
  formal : ∀ m d, t.methodDecl m = .ok d → ∀ ty ∈ d.formals, t.Knows ty
  result : ∀ m d, t.methodDecl m = .ok d → t.Knows d.result

theorem Closed.rooted (h : t.Closed) (ht : t.Consistent) (hacyclic : t.Acyclic) : t.Rooted := by
  refine ⟨hacyclic, fun {c d} hstep ↦ ?_⟩
  obtain ⟨decl, hdecl, hd⟩ := bind_eq_ok_iff.mp hstep
  obtain ⟨ty, hty, herased⟩ := Option.bind_eq_some_iff.mp (Except.ok.inj hd)
  exact (h.superclass c decl hdecl ty hty).erasedClass ht herased

end ClassTable

namespace Session

variable {t : ClassTable}

/-- Everything that the question is about is declared. The class that another is compared with need
not be. -/
def Question.Declared (t : ClassTable) : Question → Prop
  | classDecl c | superclass c | isSubclass c _ | findField c _ | findMethod c _ _ => t.Declared c
  | fieldDecl f | erasedField f | staticFieldSymbol f => f.index < t.fields.size
  | methodDecl m | procedureSymbol m => m.index < t.methods.size
  | display ty | displayErased ty => t.Knows ty
  | builtins | roster | classNamed _ | erasedClass _ | erase _ | traits _ | sameType _ _
  | classSymbols _ => True

theorem exists_reply (ht : t.Consistent) (hclosed : t.Closed) (hrooted : t.Rooted) {q : Question}
    (hq : q.Declared t) : ∃ reply, q.answer t = .ok reply := by
  -- a look-up that answers, followed by a reply that puts the answer into words
  have hreply : ∀ {α : Type} {x : Except Fault α} {f : α → Reply}, (∃ a, x = .ok a) →
      ∃ reply, (do return f (← x)) = .ok reply := by
    intro α x f ⟨a, ha⟩
    exact ⟨f a, bind_eq_ok_iff.mpr ⟨a, ha, rfl⟩⟩
  cases q with
  | builtins | roster | classNamed | erasedClass | erase | traits | sameType | classSymbols =>
    exact ⟨_, rfl⟩
  | classDecl c => exact hreply (ClassTable.declared_iff.mp hq)
  | fieldDecl f => exact hreply (Arena.exists_get hq)
  | methodDecl m => exact hreply (Arena.exists_get hq)
  | superclass c =>
    obtain ⟨v, hv⟩ := ht.exists_view hq
    exact hreply ⟨_, ClassTable.superclass_of_view hv⟩
  | isSubclass sub sup => exact hreply ⟨_, (hrooted.complete ht hq).meets_eq sup⟩
  | findField c name => exact hreply ⟨_, (hrooted.complete ht hq).findField_eq name⟩
  | findMethod c name arity =>
    obtain ⟨v, hv⟩ := ht.exists_view hq
    exact hreply ⟨_, bind_eq_ok_iff.mpr ⟨v, hv, rfl⟩⟩
  | display ty => exact hreply (ClassTable.exists_display ty hq)
  | displayErased ty => exact hreply (ClassTable.exists_display ty.erase (hq.erase ht))
  | erasedField f =>
    obtain ⟨d, hd⟩ := Arena.exists_get hq
    exact hreply ⟨_, bind_eq_ok_iff.mpr ⟨d, hd, rfl⟩⟩
  | procedureSymbol m =>
    obtain ⟨d, hd⟩ := Arena.exists_get hq
    obtain ⟨_, _, -, -, hsymbol⟩ := Symbol.exists_procedure ht hd (hclosed.formal m d hd)
    exact ⟨_, bind_eq_ok_iff.mpr ⟨d, hd, bind_eq_ok_iff.mpr ⟨_, hsymbol, rfl⟩⟩⟩
  | staticFieldSymbol f =>
    obtain ⟨d, hd⟩ := Arena.exists_get hq
    obtain ⟨_, _, hsymbol⟩ := Symbol.exists_staticField ht hd
    exact ⟨_, bind_eq_ok_iff.mpr ⟨d, hd, bind_eq_ok_iff.mpr ⟨_, hsymbol, rfl⟩⟩⟩

-- a series of layout queries is answered to its end, each query as on its own.
theorem exists_layout_answers (ht : t.Consistent) (hrooted : t.Rooted)
    {queries : List Layout.Query} (hqueries : ∀ q ∈ queries, q.Declared t) :
    ∃ answers, ((Layout.recallAll t queries).run {}).1 = ⟨answers, none⟩ ∧
      List.Forall₂ (fun q a ↦ q.answer t = .ok a) queries answers := by
  obtain ⟨answers, hanswers⟩ := exists_forall₂ fun q hq ↦
    Layout.exists_plainAnswer hrooted ht (hqueries q hq)
  exact ⟨answers, Layout.run_of_plainAnswers hrooted.acyclic hanswers,
    hanswers.imp fun _ _ ha ↦ Layout.answer_of_plainAnswer hrooted.acyclic ha⟩

/-- On a closed table where no class inherits from itself, every question about declared things is
answered, and so is every series of layout queries. What a layout remembers in between does not
show in its answers. -/
theorem closed_tables_answer (hreached : t.Reached) (hclosed : t.Closed) (hacyclic : t.Acyclic) :
    (∀ q : Question, q.Declared t → ∃ reply, q.answer t = .ok reply) ∧
      ∀ queries : List Layout.Query, (∀ q ∈ queries, q.Declared t) →
        ∃ answers, ((Layout.recallAll t queries).run {}).1 = ⟨answers, none⟩ ∧
          List.Forall₂ (fun q a ↦ q.answer t = .ok a) queries answers := by
  have ht := hreached.consistent
  have hrooted := hclosed.rooted ht hacyclic
  exact ⟨fun q hq ↦ exists_reply ht hclosed hrooted hq,
    fun queries hqueries ↦ exists_layout_answers ht hrooted hqueries⟩

/-! ## A closed table with forward references -/

namespace Nodes

def node : ClassId := ⟨3⟩
def box : ClassId := ⟨4⟩

/-- Boxes of something that is a box of nodes in its turn. -/
def nested : Ty :=
  .array (.classType box [.parameter "T" (some (.classType box [.array (.ofClass node)]))])

/-- Nodes are boxes, and boxes hold nodes. -/
def table : ClassTable := .ofDeclarations
  [.newClass "Node" {} (some (.parameter "B" (some (.classType box [.array (.ofClass node)])))) [],
    .newClass "Box" {} none ["T"],
    .field box "value" (.parameter "T" (some (.ofClass node))) {},
    .field node "peers" nested {},
    .field node "count" .int (.ofList [.static]),
    .method node "visit" {} [nested, .parameter "U" none, .null] (.ofClass node),
    .constructor box {} [.parameter "T" (some (.ofClass node))]]

theorem closed : table.Closed where
  superclass := ClassTable.forall_classDecl_iff.mpr (by decide +kernel)
  field := Arena.forall_get_iff.mpr (by decide +kernel)
  formal := ClassTable.forall_methodDecl_iff.mpr (by decide +kernel)
  result := ClassTable.forall_methodDecl_iff.mpr (by decide +kernel)

theorem questions_about_nodes_are_answered :
    (∃ reply, (Question.procedureSymbol ⟨0⟩).answer table = .ok reply) ∧
      (∃ reply, (Question.display nested).answer table = .ok reply) ∧
      (∃ reply, (Question.findField node "length").answer table = .ok reply) ∧
      ∃ answers, ((Layout.recallAll table
        [.fieldIndex node ⟨1⟩, .slotIndex box ⟨0⟩, .fields .perClass node]).run {}).1 =
          ⟨answers, none⟩ := by
  have hacyclic : table.Acyclic := ClassTable.acyclic_ofDeclarations (by decide +kernel)
  obtain ⟨hquestions, hlayout⟩ :=
    closed_tables_answer (ClassTable.reached_ofDeclarations _) closed hacyclic
  obtain ⟨answers, hanswers, -⟩ := hlayout
    [.fieldIndex node ⟨1⟩, .slotIndex box ⟨0⟩, .fields .perClass node] (by decide +kernel)
  refine ⟨hquestions _ ?_, hquestions _ ?_, hquestions _ ?_, answers, hanswers⟩
  · change 0 < table.methods.size
    decide +kernel
  · change table.Knows nested
    decide +kernel
  · change table.Declared node
    decide +kernel

end Nodes

end Session

end ObjectAbi
