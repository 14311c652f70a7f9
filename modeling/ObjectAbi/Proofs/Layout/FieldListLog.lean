import ObjectAbi.Proofs.Layout.PlainRecursion

/-!
# The log of field lists

A layout puts each field list together once, after that of the class above, and says so in its log.
What it remembers and what it has logged therefore go together: the log names each remembered list
once, a class only after the class above it, with the length of the whole list. Over a series of
queries the lists that are logged are those of the classes that were asked for and of all classes
above them, and of no others.
-/

namespace ObjectAbi

/-- The class and the kind of the field list that the event says was put together. -/
def Event.list? : Event → Option (ClassId × FieldKind)
  | fieldsListed c _ kind _ => some (c, kind)
  | classDeclared _ | internalError _ => none

/-- An event about a field list gives the name of the class and the length of its whole list. -/
def Event.Tells (t : ClassTable) : Event → Prop
  | fieldsListed c name kind count => ∃ decl fields, t.classDecl c = .ok decl ∧ name = decl.name ∧
      t.fieldsOf kind c = .ok fields ∧ count = fields.length
  | classDeclared _ | internalError _ => True

/-- Putting the first list together takes the second one: it is the list of the same class or of a
class above, and of the same kind. -/
def ClassTable.Needs (t : ClassTable) (asked list : ClassId × FieldKind) : Prop :=
  list.2 = asked.2 ∧ t.Declared list.1 ∧ t.Inherits asked.1 list.1

namespace Layout

/-- The list of fields that the query asks for. A position is looked up among those of objects. -/
def Query.list? : Query → Option (ClassId × FieldKind)
  | fields kind c => some (c, kind)
  | fieldIndex c _ => some (c, .perObject)
  | slots _ | slotIndex _ _ | erasedClass _ _ | structName _ => none

/-! ## The lists that a log names -/

namespace Memo

/-- The field lists that were put together, in order. -/
def listed (memo : Memo) : List (ClassId × FieldKind) := memo.log.toList.filterMap Event.list?

theorem listed_addEvent (memo : Memo) (event : Event) :
    (memo.addEvent event).listed = memo.listed ++ event.list?.toList := by
  cases hlist : event.list? <;> simp [listed, addEvent, hlist]

theorem log_setFields (memo : Memo) (kind : FieldKind) (c : ClassId) (fields : List FieldEntry) :
    (memo.setFields kind c fields).log = memo.log := by
  cases kind <;> rfl

/-- What is remembered and what is logged go together. -/
structure Logged (t : ClassTable) (memo : Memo) : Prop extends Sound t memo where
  mem_listed_iff : ∀ {c kind}, (c, kind) ∈ memo.listed ↔ (memo.fields? kind c).isSome
  nodup : memo.listed.Nodup
  /-- A list is logged only when that of the class above is. -/
  ordered : ∀ {before c kind d}, before ++ [(c, kind)] <+: memo.listed → t.Extends c d →
    (d, kind) ∈ before
  tells : ∀ event ∈ memo.log, event.Tells t

variable {t : ClassTable} {memo after : Memo} {c d : ClassId} {kind : FieldKind}

theorem logged_empty : Logged t {} where
  toSound := sound_empty
  mem_listed_iff {c kind} := by cases kind <;> simp [listed, fields?]
  nodup := .nil
  ordered h := by simp [listed] at h
  tells := by simp

-- only the lists of fields and the log matter.
theorem Logged.congr (h : memo.Logged t) (hsound : after.Sound t) (hlog : after.log = memo.log)
    (hfields : ∀ kind c, after.fields? kind c = memo.fields? kind c) : after.Logged t := by
  have hlisted : after.listed = memo.listed := by rw [listed, listed, hlog]
  refine ⟨hsound, fun {c kind} ↦ ?_, hlisted ▸ h.nodup, fun hbefore ↦ h.ordered (hlisted ▸ hbefore),
    hlog ▸ h.tells⟩
  rw [hlisted, hfields]
  exact h.mem_listed_iff

-- an event that is not about a list leaves the others as they are.
theorem Logged.addEvent (h : memo.Logged t) {event : Event} (hevent : event.list? = none)
    (htells : event.Tells t) : (memo.addEvent event).Logged t := by
  have hlisted : (memo.addEvent event).listed = memo.listed := by simp [listed_addEvent, hevent]
  refine ⟨h.toSound.addEvent event, fun {c kind} ↦ ?_, hlisted ▸ h.nodup,
    fun hbefore ↦ h.ordered (hlisted ▸ hbefore), fun e he ↦ ?_⟩
  · rw [hlisted, fields?_addEvent]
    exact h.mem_listed_iff
  · obtain hold | rfl := Array.mem_push.mp he
    · exact h.tells e hold
    · exact htells

theorem Logged.above (h : memo.Logged t) (hc : (c, kind) ∈ memo.listed) (hstep : t.Extends c d) :
    (d, kind) ∈ memo.listed := by
  obtain ⟨before, after, hsplit⟩ := List.mem_iff_append.mp hc
  have hbefore : before ++ [(c, kind)] <+: memo.listed := ⟨after, by simp [hsplit]⟩
  rw [hsplit]
  exact List.mem_append_left _ (h.ordered hbefore hstep)

theorem Logged.mem_of_needs (h : memo.Logged t) {asked list : ClassId × FieldKind}
    (hasked : asked ∈ memo.listed) (hneeds : t.Needs asked list) : list ∈ memo.listed := by
  obtain ⟨c, kind⟩ := asked
  obtain ⟨d, kind'⟩ := list
  obtain ⟨hkind, -, hinherits⟩ : kind' = kind ∧ t.Declared d ∧ t.Inherits c d := hneeds
  rw [hkind]
  induction hinherits with
  | refl => exact hasked
  | tail _ hstep ih => exact h.above ih hstep

/-- The step: a list that is not there yet is logged and remembered, once those above are. -/
theorem Logged.addList (h : memo.Logged t) {v : ClassView} {fields : List FieldEntry}
    (hv : t.view c = .ok v) (hnew : memo.fields? kind c = none)
    (hfields : t.fieldsOf kind c = .ok fields)
    (habove : ∀ d, t.Extends c d → (d, kind) ∈ memo.listed) :
    ((memo.addEvent (.fieldsListed c v.decl.name kind fields.length)).setFields kind c
      fields).Logged t := by
  have hlisted : ((memo.addEvent (.fieldsListed c v.decl.name kind fields.length)).setFields kind c
      fields).listed = memo.listed ++ [(c, kind)] := by
    rw [listed, log_setFields]
    exact listed_addEvent memo _
  have hfresh : (c, kind) ∉ memo.listed := by
    rw [h.mem_listed_iff, hnew]
    simp
  refine ⟨(h.toSound.addEvent _).setFields hfields, fun {c' kind'} ↦ ?_, ?_, ?_, ?_⟩
  · rw [hlisted, List.mem_append, h.mem_listed_iff, fields?_setFields, fields?_addEvent]
    by_cases heq : kind = kind' ∧ c = c'
    · obtain ⟨rfl, rfl⟩ := heq
      simp
    · rw [if_neg heq]
      have hne : (c', kind') ≠ (c, kind) := fun hpair ↦ by
        cases hpair
        exact heq ⟨rfl, rfl⟩
      simp [hne]
  · rw [hlisted]
    exact h.nodup.append (List.nodup_singleton _) (List.disjoint_singleton.mpr hfresh)
  · intro before c' kind' d hbefore hstep
    rw [hlisted, List.prefix_concat_iff] at hbefore
    obtain heq | hold := hbefore
    · obtain ⟨rfl, hlast⟩ := List.append_inj' heq rfl
      cases hlast
      exact habove d hstep
    · exact h.ordered hold hstep
  · rw [log_setFields]
    intro e he
    obtain hold | rfl := Array.mem_push.mp he
    · exact h.tells e hold
    · exact ⟨v.decl, fields, ClassTable.classDecl_of_view hv, rfl, hfields, rfl⟩

end Memo

/-! ## Work that logs what it puts together -/

/-- The work keeps memo and log together, and afterwards those lists are there that were there
before or that the given list needs. -/
def Lists {α : Type} (t : ClassTable) (work : Recall α) (asked : Option (ClassId × FieldKind)) :
    Prop :=
  ∀ memo, memo.Logged t → (work.run.run memo).2.Logged t ∧
    ∀ list, list ∈ (work.run.run memo).2.listed ↔
      list ∈ memo.listed ∨ ∃ a ∈ asked, t.Needs a list

section lists

variable {α β : Type} {t : ClassTable} {asked : Option (ClassId × FieldKind)}

theorem lists_lift (outcome : Except Fault α) : Lists t (liftM outcome : Recall α) none :=
  fun _ h ↦ ⟨h, fun list ↦ by simp; rfl⟩

theorem Lists.bind {x : Recall α} {f : α → Recall β} (hx : Lists t x asked)
    (hf : ∀ a, Lists t (f a) none) : Lists t (x >>= f) asked := by
  intro memo h
  obtain ⟨hbetween, hlists⟩ := hx memo h
  rw [run_bind]
  rcases hrun : x.run.run memo with ⟨fault | a, between⟩
  · rw [hrun] at hbetween hlists
    exact ⟨hbetween, hlists⟩
  · rw [hrun] at hbetween hlists
    obtain ⟨hafter, hsame⟩ := hf a between hbetween
    refine ⟨hafter, fun list ↦ ?_⟩
    change list ∈ ((f a).run.run between).2.listed ↔ _
    rw [hsame, ← hlists]
    simp

theorem lists_logged (answer : Answer) : Lists t (logged answer) none := by
  intro memo h
  cases answer with
  | internalError error =>
    have hlogged : (memo.addEvent (.internalError error)).Logged t := h.addEvent rfl trivial
    refine ⟨hlogged, fun list ↦ ?_⟩
    change list ∈ (memo.addEvent (.internalError error)).listed ↔ _
    simp [Memo.listed_addEvent, Event.list?]
  | _ => exact ⟨h, fun list ↦ by simp; rfl⟩

end lists

/-! ## Field lists -/

section fields

variable {t : ClassTable} {c : ClassId} {v : ClassView} {kind : FieldKind}

-- the list of a class needs itself, and what the list of the class above needs.
theorem needs_iff_of_view (hv : t.view c = .ok v) {list : ClassId × FieldKind} :
    t.Needs (c, kind) list ↔ list = (c, kind) ∨
      ∃ a ∈ v.decl.superclass?.map fun d ↦ (d, kind), t.Needs a list := by
  refine ⟨fun ⟨hkind, hdeclared, hinherits⟩ ↦ ?_, fun hneeds ↦ ?_⟩
  · obtain heq | ⟨d, hstep, hrest⟩ := Relation.ReflTransGen.cases_head hinherits
    · exact .inl (Prod.ext heq.symm hkind)
    · have hd := (ClassTable.extends_iff_of_view hv).mp hstep
      exact .inr ⟨(d, kind), Option.mem_map_of_mem _ hd, hkind, hdeclared, hrest⟩
  · obtain rfl | ⟨a, ha, hkind, hdeclared, hrest⟩ := hneeds
    · exact ⟨rfl, ClassTable.declared_of_view hv, .refl⟩
    · obtain ⟨d, hd, rfl⟩ := Option.map_eq_some_iff.mp ha
      exact ⟨hkind, hdeclared, .head ((ClassTable.extends_iff_of_view hv).mpr hd) hrest⟩

-- no class above needs the list of a class below.
theorem not_needs_of_above (h : t.Acyclic) (hv : t.view c = .ok v) :
    ¬ ∃ a ∈ v.decl.superclass?.map fun d ↦ (d, kind), t.Needs a (c, kind) := by
  rintro ⟨a, ha, -, -, hinherits⟩
  obtain ⟨d, hd, rfl⟩ := Option.map_eq_some_iff.mp ha
  exact h c (.head' ((ClassTable.extends_iff_of_view hv).mpr hd) hinherits)

-- where the work on the class above logs what it should, the list of the class comes after it.
theorem lists_recallFields (h : t.Rooted) (hv : t.view c = .ok v)
    {above : Recall (List FieldEntry)} {inherited : List FieldEntry}
    (hfaithful : Faithful t above (.ok inherited))
    (habove : Lists t above (v.decl.superclass?.map fun d ↦ (d, kind)))
    (hfields : t.fieldsOf kind c = .ok (inherited ++ v.fieldsOf kind)) :
    Lists t (recallFields kind v above) (some (c, kind)) := by
  intro memo hmemo
  have hid := ClassTable.id_of_view hv
  simp only [run_recallFields, Option.mem_some_iff, exists_eq_left', hid]
  cases hknown : memo.fields? kind c with
  | some fields =>
    have hc : (c, kind) ∈ memo.listed := hmemo.mem_listed_iff.mpr (by rw [hknown]; rfl)
    exact ⟨hmemo, fun list ↦ ⟨.inl, fun hlist ↦ hlist.elim id (hmemo.mem_of_needs hc)⟩⟩
  | none =>
    obtain ⟨hbetween, hlists⟩ := habove memo hmemo
    obtain ⟨between, hrun, -⟩ := hfaithful memo hmemo.toSound
    simp only [hrun] at hbetween hlists ⊢
    have hfresh : (c, kind) ∉ between.listed := by
      rw [hlists, hmemo.mem_listed_iff, hknown]
      exact not_or.mpr ⟨Bool.false_ne_true, not_needs_of_above h.acyclic hv⟩
    have hnew : between.fields? kind c = none := by
      rwa [hbetween.mem_listed_iff, Option.not_isSome_iff_eq_none] at hfresh
    have hready : ∀ d, t.Extends c d → (d, kind) ∈ between.listed := by
      intro d hstep
      have hd := (ClassTable.extends_iff_of_view hv).mp hstep
      exact (hlists _).mpr
        (.inr ⟨_, Option.mem_map_of_mem _ hd, rfl, h.closed hstep, .refl⟩)
    refine ⟨hbetween.addList hv hnew hfields hready, fun list ↦ ?_⟩
    rw [Memo.listed, Memo.log_setFields]
    change list ∈ (between.addEvent _).listed ↔ _
    rw [Memo.listed_addEvent, List.mem_append, hlists, needs_iff_of_view hv]
    simp only [Event.list?, Option.toList_some, List.mem_singleton]
    exact or_assoc.trans (or_congr_right or_comm)

theorem lists_fieldsIn (h : t.Rooted) (ht : t.Consistent) (kind : FieldKind) (c : ClassId) :
    Lists t (fieldsIn kind (t.lineage c)) (some (c, kind)) := by
  apply h.acyclic.induction (motive := fun c ↦
    Lists t (fieldsIn kind (t.lineage c)) (some (c, kind)))
  · intro c fault hv memo hmemo
    rw [h.acyclic.lineage_of_error hv]
    refine ⟨hmemo, fun list ↦ ⟨.inl, fun hlist ↦ hlist.elim id fun ⟨a, ha, hneeds⟩ ↦ ?_⟩⟩
    -- no declared class is above one that is not declared
    cases ha
    exact absurd (hneeds.2.2.declared hneeds.2.1) (ht.view_eq_error_iff.mp hv).1
  · intro c v hv hd
    have habove : Lists t (return [] : Recall (List FieldEntry))
        (v.decl.superclass?.map fun d ↦ (d, kind)) := by
      rw [hd]
      exact lists_lift (.ok [])
    rw [h.acyclic.lineage_of_root hv hd]
    exact lists_recallFields h hv (faithful_lift (.ok [])) habove
      (h.acyclic.fieldsOf_of_root hv hd)
  · intro c v d hv hstep ih
    have hd := (ClassTable.extends_iff_of_view hv).mp hstep
    obtain ⟨inherited, hinherited⟩ : ∃ inherited, t.fieldsOf kind d = .ok inherited :=
      (h.complete ht (h.closed hstep)).exists_fields kind
    have hfaithful := faithful_fieldsIn h.acyclic kind d
    rw [hinherited] at hfaithful
    rw [h.acyclic.lineage_of_extends hv hstep]
    refine lists_recallFields h hv hfaithful (by rwa [hd]) ?_
    rw [h.acyclic.fieldsOf_of_extends hv hstep, hinherited]
    rfl

end fields

/-! ## Queries -/

section queries

variable {t : ClassTable}

-- slots are worked out without a look at fields or at the log.
theorem run_slotsIn_frame (l : Lineage) (memo : Memo) :
    ((slotsIn l).run.run memo).2.log = memo.log ∧
      ∀ kind c, ((slotsIn l).run.run memo).2.fields? kind c = memo.fields? kind c := by
  have hrecall : ∀ (v : ClassView) (above : Recall (List Slot)),
      ((above.run.run memo).2.log = memo.log ∧
        ∀ kind c, (above.run.run memo).2.fields? kind c = memo.fields? kind c) →
      ((recallSlots v above).run.run memo).2.log = memo.log ∧
        ∀ kind c, ((recallSlots v above).run.run memo).2.fields? kind c =
          memo.fields? kind c := by
    intro v above habove
    rw [run_recallSlots]
    cases memo.slots? v.id with
    | some slots => exact ⟨rfl, fun _ _ ↦ rfl⟩
    | none =>
      rcases hrun : above.run.run memo with ⟨fault | inherited, between⟩
      · rwa [hrun] at habove
      · rw [hrun] at habove
        exact ⟨habove.1, fun kind c ↦ by simpa using habove.2 kind c⟩
  induction l with
  | root v => exact hrecall v _ ⟨rfl, fun _ _ ↦ rfl⟩
  | heir v above ih => exact hrecall v _ ih
  | broken c fault => exact ⟨rfl, fun _ _ ↦ rfl⟩

theorem lists_slotsIn (h : t.Acyclic) (c : ClassId) : Lists t (slotsIn (t.lineage c)) none := by
  intro memo hmemo
  obtain ⟨hlog, hfields⟩ := run_slotsIn_frame (t.lineage c) memo
  obtain ⟨after, hrun, hsound⟩ := faithful_slotsIn h c memo hmemo.toSound
  simp only [hrun] at hlog hfields ⊢
  exact ⟨hmemo.congr hsound hlog hfields, fun list ↦ by simp [Memo.listed, hlog]⟩

/-- The step: a query logs the lists that its answer takes, as far as they are not there yet. -/
theorem lists_recall (h : t.Rooted) (ht : t.Consistent) (q : Query) :
    Lists t (q.recall t) q.list? := by
  cases q with
  | fields kind c => exact (lists_fieldsIn h ht kind c).bind fun fields ↦ lists_lift (.ok _)
  | fieldIndex c f =>
    exact (lists_fieldsIn h ht .perObject c).bind fun fields ↦
      (lists_lift (fieldIndexIn t fields c f)).bind lists_logged
  | slots c => exact (lists_slotsIn h.acyclic c).bind fun slots ↦ lists_lift (.ok _)
  | slotIndex c m => exact (lists_slotsIn h.acyclic c).bind fun slots ↦ lists_lift (.ok _)
  | erasedClass ty context =>
    exact (lists_lift (Layout.erasedClass t ty context)).bind lists_logged
  | structName c => exact lists_lift (Layout.structName t c)

/-- The queries of a series that a new layout comes to: those that it answers, and the one that a
fault ends the series with, if there is one. -/
def carriedOut (t : ClassTable) (queries : List Query) : List Query :=
  queries.take (((recallAll t queries).run {}).1.answers.length + 1)

/-- The run: over a series of queries memo and log stay together, and those lists come in that the
queries carried out need. -/
theorem logged_recallAll (h : t.Rooted) (ht : t.Consistent) (queries : List Query) {memo : Memo}
    (hmemo : memo.Logged t) :
    ((recallAll t queries).run memo).2.Logged t ∧
      ∀ list, list ∈ ((recallAll t queries).run memo).2.listed ↔ list ∈ memo.listed ∨
        ∃ q ∈ queries.take (((recallAll t queries).run memo).1.answers.length + 1),
          ∃ a ∈ q.list?, t.Needs a list := by
  induction queries generalizing memo with
  | nil => exact ⟨hmemo, fun list ↦ by simp; rfl⟩
  | cons q queries ih =>
    obtain ⟨hbetween, hlists⟩ := lists_recall h ht q memo hmemo
    rw [recallAll, run_runAll_cons]
    rcases hrun : (q.recall t).run.run memo with ⟨fault | answer, between⟩
    · rw [hrun] at hbetween hlists
      exact ⟨hbetween, fun list ↦ by simpa using hlists list⟩
    · rw [hrun] at hbetween hlists
      obtain ⟨hafter, hrest⟩ := ih hbetween
      rw [recallAll] at hafter hrest
      refine ⟨hafter, fun list ↦ ?_⟩
      simp only [Transcript.cons, List.length_cons, List.take_succ_cons, List.mem_cons,
        exists_eq_or_imp]
      rw [hrest, hlists, or_assoc]

theorem carriedOut_eq_self (h : t.Rooted) (ht : t.Consistent) {queries : List Query}
    (hdeclared : ∀ q ∈ queries, q.Declared t) : carriedOut t queries = queries := by
  obtain ⟨answers, hanswers⟩ := exists_forall₂ fun q hq ↦ exists_plainAnswer h ht (hdeclared q hq)
  rw [carriedOut, run_of_plainAnswers h.acyclic hanswers, ← hanswers.length_eq]
  exact List.take_of_length_le (Nat.le_succ _)

/-- Over a series of queries a new layout puts each field list together at most once, that of a
class after that of the class above, and logs it with the length of the whole list. The lists are
those of the classes that the queries ask for and of all classes above them, of the kind asked for.
Every query is carried out if all that it mentions is declared. -/
theorem field_lists_logged_once (hreached : t.Reached) (hrooted : t.Rooted)
    (queries : List Query) :
    (memoAfter t queries).listed.Nodup ∧
      (∀ before after c kind d, (memoAfter t queries).listed = before ++ (c, kind) :: after →
        t.Extends c d → (d, kind) ∈ before) ∧
      (∀ c name kind count, .fieldsListed c name kind count ∈ (memoAfter t queries).log →
        ∃ decl fields, t.classDecl c = .ok decl ∧ name = decl.name ∧
          (∀ earlier, answerAfter t earlier (.fields kind c) = .ok (.fields fields)) ∧
          count = fields.length) ∧
      (∀ c kind, (c, kind) ∈ (memoAfter t queries).listed ↔
        ∃ q ∈ carriedOut t queries, ∃ d, q.list? = some (d, kind) ∧ t.Declared c ∧
          t.Inherits d c) ∧
      ((∀ q ∈ queries, q.Declared t) → carriedOut t queries = queries) := by
  have ht := hreached.consistent
  obtain ⟨hlogged, hlists⟩ := logged_recallAll hrooted ht queries Memo.logged_empty
  refine ⟨hlogged.nodup, fun before after c kind d hsplit ↦ ?_,
    fun c name kind count hevent ↦ ?_, fun c kind ↦ ?_, carriedOut_eq_self hrooted ht⟩
  · exact hlogged.ordered ⟨after, by rw [List.append_assoc]; exact hsplit.symm⟩
  · obtain ⟨decl, fields, hdecl, hname, hfields, hcount⟩ := hlogged.tells _ hevent
    refine ⟨decl, fields, hdecl, hname, fun earlier ↦ ?_, hcount⟩
    rw [answerAfter_eq_answer hrooted.acyclic]
    exact bind_eq_ok_iff.mpr ⟨fields, hfields, rfl⟩
  · have hnone : (c, kind) ∉ ({} : Memo).listed := List.not_mem_nil
    rw [memoAfter, hlists, or_iff_right hnone]
    refine exists_congr fun q ↦ and_congr_right fun _ ↦ ⟨fun hneeds ↦ ?_, fun hneeds ↦ ?_⟩
    · obtain ⟨⟨d, kind'⟩, hq, hkind, hc, hinherits⟩ := hneeds
      cases (hkind : kind = kind')
      exact ⟨d, hq, hc, hinherits⟩
    · obtain ⟨d, hq, hc, hinherits⟩ := hneeds
      exact ⟨(d, kind), hq, rfl, hc, hinherits⟩

/-- A look-up that fails, slots and static fields of a class further down, and the look-up again. -/
def repeatedLookUp : List Query :=
  [.fieldIndex Shapes.square ⟨2⟩, .slots Shapes.tile, .fields .perClass Shapes.tile,
    .fieldIndex Shapes.square ⟨2⟩]

-- the failing look-up puts the list of squares together, and nothing asks for that of tiles
theorem failed_look_up_lists_square_once :
    (memoAfter Shapes.table repeatedLookUp).listed.count (Shapes.square, .perObject) = 1 ∧
      (∀ before after, (memoAfter Shapes.table repeatedLookUp).listed =
        before ++ (Shapes.square, .perObject) :: after → (Shapes.shape, .perObject) ∈ before) ∧
      (Shapes.tile, .perObject) ∉ (memoAfter Shapes.table repeatedLookUp).listed := by
  obtain ⟨hnodup, hordered, -, hlisted, hall⟩ :=
    field_lists_logged_once Shapes.reached Shapes.rooted repeatedLookUp
  rw [hall (by decide +kernel)] at hlisted
  have hsquare : (Shapes.square, .perObject) ∈ (memoAfter Shapes.table repeatedLookUp).listed :=
    (hlisted _ _).mpr ⟨_, List.mem_cons_self, Shapes.square, rfl, by decide, .refl⟩
  refine ⟨List.count_eq_one_of_mem hnodup hsquare, fun before after hsplit ↦
    hordered before after _ _ _ hsplit rfl, fun htile ↦ ?_⟩
  -- the two look-ups in squares are the only queries for fields of objects
  obtain ⟨q, hq, d, hlist, -, hinherits⟩ := (hlisted _ _).mp htile
  have hqueries : ∀ q ∈ repeatedLookUp, ∀ list ∈ q.list?, list.2 = .perObject →
      list.1 = Shapes.square := by decide
  have hd : d = Shapes.square := hqueries q hq _ hlist rfl
  have hcycle : Shapes.table.InheritsProperly Shapes.tile Shapes.tile :=
    .head' (show Shapes.table.Extends Shapes.tile Shapes.square from rfl) (hd ▸ hinherits)
  exact Shapes.rooted.acyclic _ hcycle

end queries

end Layout

end ObjectAbi
