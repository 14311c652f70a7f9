import ObjectAbi.Proofs.Layout.FieldListLog
import ObjectAbi.Proofs.Layout.FieldStability

/-!
# Field lists on any table

A table may have classes that inherit from themselves or from a class that is never declared. A
layout has no field list to give for these, and it remembers none: every list that it remembers is
one that plain recursion gives. So where the way up from a class ends at the root, the list of the
class does not depend on what the layout was asked before, whichever classes that was about.
-/

namespace ObjectAbi.Layout

section recursion

variable {α : Type} {t : ClassTable} {add : ClassView → List α → List α} {c : ClassId}
  {list list' : List α}

-- the recursion gives one list at most, also where it does not end for other classes.
theorem FromRoot.unique (h : FromRoot t add c list) (h' : FromRoot t add c list') :
    list = list' := by
  induction h generalizing list' with
  | root hv hroot =>
    cases h' with
    | root hv' => rw [Except.ok.inj (hv.symm.trans hv')]
    | heir hv' hstep => cases hroot.symm.trans hstep
  | heir hv hstep habove ih =>
    cases h' with
    | root hv' hroot => cases hstep.symm.trans hroot
    | heir hv' hstep' habove' =>
      cases hstep.symm.trans hstep'
      rw [ih habove', Except.ok.inj (hv.symm.trans hv')]

end recursion

/-! ## Memos of plain lists -/

namespace Memo

/-- Every field list remembered is the one that plain recursion gives. -/
def Plain (t : ClassTable) (memo : Memo) : Prop :=
  ∀ kind c fields, memo.fields? kind c = some fields → FromRoot t (fieldsOver kind) c fields

variable {t : ClassTable} {memo after : Memo}

theorem plain_empty : Plain t {} := by
  intro kind c fields h
  cases kind <;> simp [fields?] at h

-- only the field lists matter.
theorem Plain.congr (h : memo.Plain t)
    (hfields : ∀ kind c, after.fields? kind c = memo.fields? kind c) : after.Plain t :=
  fun kind c fields hknown ↦ h kind c fields (hfields kind c ▸ hknown)

theorem Plain.addEvent (h : memo.Plain t) (event : Event) : (memo.addEvent event).Plain t :=
  h.congr fun _ _ ↦ fields?_addEvent ..

theorem Plain.setFields (h : memo.Plain t) {kind : FieldKind} {c : ClassId}
    {fields : List FieldEntry} (hfields : FromRoot t (fieldsOver kind) c fields) :
    (memo.setFields kind c fields).Plain t := by
  intro kind' c' fields' hknown
  rw [fields?_setFields] at hknown
  split at hknown
  · rename_i heq
    obtain ⟨rfl, rfl⟩ := heq
    rwa [← Option.some.inj hknown]
  · exact h kind' c' fields' hknown

end Memo

/-! ## Work that remembers plain lists -/

/-- On a memo of plain lists the work leaves one behind, and what it comes to has the property. -/
def Yields {α : Type} (t : ClassTable) (work : Recall α) (p : α → Prop) : Prop :=
  ∀ memo, memo.Plain t →
    (work.run.run memo).2.Plain t ∧ ∀ a, (work.run.run memo).1 = .ok a → p a

section yields

variable {α β : Type} {t : ClassTable} {p : α → Prop} {q : β → Prop}

theorem yields_lift (outcome : Except Fault α) :
    Yields t (liftM outcome : Recall α) fun a ↦ outcome = .ok a :=
  fun _ h ↦ ⟨h, fun _ ha ↦ ha⟩

theorem yields_throw (fault : Fault) : Yields t (throw fault) p :=
  fun _ h ↦ ⟨h, fun _ ha ↦ by cases ha⟩

theorem Yields.bind {x : Recall α} {f : α → Recall β} (hx : Yields t x p)
    (hf : ∀ a, p a → Yields t (f a) q) : Yields t (x >>= f) q := by
  intro memo h
  obtain ⟨hbetween, hp⟩ := hx memo h
  rw [run_bind]
  rcases hrun : x.run.run memo with ⟨fault | a, between⟩
  · rw [hrun] at hbetween
    exact ⟨hbetween, nofun⟩
  · rw [hrun] at hbetween hp
    exact hf a (hp a rfl) between hbetween

theorem Yields.imp {p' : α → Prop} {x : Recall α} (hx : Yields t x p) (himp : ∀ a, p a → p' a) :
    Yields t x p' :=
  fun memo h ↦ ⟨(hx memo h).1, fun a ha ↦ himp a ((hx memo h).2 a ha)⟩

theorem yields_logged (answer : Answer) : Yields t (logged answer) fun _ ↦ True := by
  intro memo h
  cases answer with
  | internalError error => exact ⟨h.addEvent (.internalError error), fun _ _ ↦ trivial⟩
  | _ => exact ⟨h, fun _ _ ↦ trivial⟩

end yields

section fields

variable {t : ClassTable} {c : ClassId} {kind : FieldKind} {fields : List FieldEntry}

-- the list of a class is remembered once the one above it has been put together.
theorem yields_recallFields {v : ClassView} (hid : v.id = c) {above : Recall (List FieldEntry)}
    (habove : Yields t above fun inherited ↦
      FromRoot t (fieldsOver kind) c (fieldsOver kind v inherited)) :
    Yields t (recallFields kind v above) (FromRoot t (fieldsOver kind) c) := by
  intro memo h
  rw [run_recallFields, hid]
  cases hknown : memo.fields? kind c with
  | some fields =>
    refine ⟨h, fun fields' hfields ↦ ?_⟩
    cases hfields
    exact h kind c fields hknown
  | none =>
    obtain ⟨hbetween, hlist⟩ := habove memo h
    rcases hrun : above.run.run memo with ⟨fault | inherited, between⟩
    · rw [hrun] at hbetween
      exact ⟨hbetween, nofun⟩
    · rw [hrun] at hbetween hlist
      refine ⟨(hbetween.addEvent _).setFields (hlist inherited rfl), fun fields hfields ↦ ?_⟩
      cases hfields
      exact hlist inherited rfl

/-- The step: however far a walk up from the class goes, a list that it comes to is plain. -/
theorem yields_fieldsIn (t : ClassTable) (kind : FieldKind) (n : Nat) (c : ClassId) :
    Yields t (fieldsIn kind (t.lineageWithin n c)) (FromRoot t (fieldsOver kind) c) := by
  induction n generalizing c with
  | zero => exact yields_throw .cyclicInheritance
  | succ n ih =>
    rw [ClassTable.lineageWithin]
    cases hv : t.view c with
    | error fault => exact yields_throw fault
    | ok v =>
      have hid := ClassTable.id_of_view hv
      cases hd : v.decl.superclass? with
      | none =>
        have hroot : t.superclass c = .ok none := by rw [ClassTable.superclass_of_view hv, hd]
        simp only [hd]
        refine yields_recallFields hid ((yields_lift (.ok [])).imp fun inherited hnil ↦ ?_)
        rw [← Except.ok.inj hnil]
        exact .root hv hroot
      | some d =>
        have hstep : t.Extends c d := (ClassTable.extends_iff_of_view hv).mpr hd
        simp only [hd]
        exact yields_recallFields hid ((ih d).imp fun inherited habove ↦ .heir hv hstep habove)

/-! ## Histories -/

theorem yields_slotsIn (l : Lineage) : Yields t (slotsIn l) fun _ ↦ True :=
  fun memo h ↦ ⟨h.congr (run_slotsIn_frame l memo).2, fun _ _ ↦ trivial⟩

theorem yields_recall (t : ClassTable) (q : Query) : Yields t (q.recall t) fun _ ↦ True := by
  have hdone : ∀ answer : Except Fault Answer,
      Yields t (liftM answer : Recall Answer) fun _ ↦ True :=
    fun answer ↦ (yields_lift answer).imp fun _ _ ↦ trivial
  cases q with
  | fields kind c => exact (yields_fieldsIn t kind _ c).bind fun fields _ ↦ hdone (.ok _)
  | fieldIndex c f =>
    exact (yields_fieldsIn t .perObject _ c).bind fun fields _ ↦
      (hdone (fieldIndexIn t fields c f)).bind fun answer _ ↦ yields_logged answer
  | slots c => exact (yields_slotsIn _).bind fun slots _ ↦ hdone (.ok _)
  | slotIndex c m => exact (yields_slotsIn _).bind fun slots _ ↦ hdone (.ok _)
  | erasedClass ty context =>
    exact (hdone (Layout.erasedClass t ty context)).bind fun answer _ ↦ yields_logged answer
  | structName c => exact hdone (Layout.structName t c)

/-- The run: over a series of queries every list that is remembered is plain, also when a fault ends
the series. -/
theorem plain_recallAll (t : ClassTable) (queries : List Query) {memo : Memo} (h : memo.Plain t) :
    ((recallAll t queries).run memo).2.Plain t :=
  runUntil_preserves (Memo.Plain t) _ (fun q between hbetween ↦
    (yields_recall t q between hbetween).1) queries h

-- a way up that ends at the root is worked through to its end.
theorem exists_run_fieldsIn {l : Lineage} (h : l.Complete) (kind : FieldKind) (memo : Memo) :
    ∃ fields after, (fieldsIn kind l).run.run memo = (.ok fields, after) := by
  have hrecall : ∀ (v : ClassView) (above : Recall (List FieldEntry)),
      (∃ inherited between, above.run.run memo = (.ok inherited, between)) →
      ∃ fields after, (recallFields kind v above).run.run memo = (.ok fields, after) := by
    rintro v above ⟨inherited, between, hrun⟩
    rw [run_recallFields, hrun]
    cases memo.fields? kind v.id with
    | some fields => exact ⟨fields, memo, rfl⟩
    | none => exact ⟨_, _, rfl⟩
  induction l with
  | root v => exact hrecall v _ ⟨[], memo, rfl⟩
  | heir v above ih => exact hrecall v _ (ih h)
  | broken c fault => exact h.elim

variable (hcomplete : (t.lineage c).Complete)

include hcomplete

theorem run_fieldsIn_memoAfter (hfields : FromRoot t (fieldsOver kind) c fields)
    (before : List Query) :
    ∃ after, (fieldsIn kind (t.lineage c)).run.run (memoAfter t before) = (.ok fields, after) := by
  obtain ⟨found, after, hrun⟩ := exists_run_fieldsIn hcomplete kind (memoAfter t before)
  have hplain : (memoAfter t before).Plain t := plain_recallAll t before Memo.plain_empty
  have hfound := (yields_fieldsIn t kind _ c _ hplain).2 found (congrArg Prod.fst hrun)
  exact ⟨after, hfields.unique hfound ▸ hrun⟩

-- the list of the class is the plain one, whatever the layout was asked before.
theorem answerAfter_fields (hfields : FromRoot t (fieldsOver kind) c fields)
    (before : List Query) : answerAfter t before (.fields kind c) = .ok (.fields fields) := by
  obtain ⟨after, hrun⟩ := run_fieldsIn_memoAfter hcomplete hfields before
  rw [answerAfter, Query.recall, run_bind, hrun]
  rfl

theorem answerAfter_fieldIndex (hfields : FromRoot t (fieldsOver .perObject) c fields)
    {f : FieldId} {i : UInt32} (hi : fieldIndex? fields f = some i) (before : List Query) :
    answerAfter t before (.fieldIndex c f) = .ok (.fieldIndex i) := by
  obtain ⟨after, hrun⟩ := run_fieldsIn_memoAfter hcomplete hfields before
  have hanswer := fieldIndexIn_eq_fieldIndex_iff (t := t) (c := c).mpr hi
  rw [answerAfter, Query.recall, run_bind, hrun]
  simp only [hanswer]
  rfl

end fields

end ObjectAbi.Layout
