import ObjectAbi.Layout.Memo
import ObjectAbi.Proofs.Layout.Inheritance

/-!
# What a layout remembers

A layout answers from the lists it has worked out before, for the class that was asked for and for
classes above it. Where no class inherits from itself, everything remembered is what the table alone
would give, whatever was asked before and in whatever order. So the history of a layout never shows
in its answers.
-/

namespace ObjectAbi.Layout

/-! ## Looking up what is remembered -/

namespace Memo

variable (memo : Memo)

theorem fields?_setFields (kind kind' : FieldKind) (c c' : ClassId) (fields : List FieldEntry) :
    (memo.setFields kind c fields).fields? kind' c' =
      if kind = kind' ∧ c = c' then some fields else memo.fields? kind' c' := by
  cases kind <;> cases kind' <;> simp [setFields, fields?, Std.TreeMap.getElem?_insert]

@[simp] theorem slots?_setFields (kind : FieldKind) (c c' : ClassId) (fields : List FieldEntry) :
    (memo.setFields kind c fields).slots? c' = memo.slots? c' := by
  cases kind <;> rfl

theorem slots?_setSlots (c c' : ClassId) (slots : List Slot) :
    (memo.setSlots c slots).slots? c' = if c = c' then some slots else memo.slots? c' := by
  simp [setSlots, slots?, Std.TreeMap.getElem?_insert]

@[simp] theorem fields?_setSlots (kind : FieldKind) (c c' : ClassId) (slots : List Slot) :
    (memo.setSlots c slots).fields? kind c' = memo.fields? kind c' := by
  cases kind <;> rfl

@[simp] theorem fields?_addEvent (event : Event) (kind : FieldKind) (c : ClassId) :
    (memo.addEvent event).fields? kind c = memo.fields? kind c := by
  cases kind <;> rfl

@[simp] theorem slots?_addEvent (event : Event) (c : ClassId) :
    (memo.addEvent event).slots? c = memo.slots? c :=
  rfl

/-! ## Remembering only what the table gives -/

/-- Every list remembered is the one that the table gives. -/
structure Sound (t : ClassTable) (memo : Memo) : Prop where
  fields : ∀ {kind c fields}, memo.fields? kind c = some fields → t.fieldsOf kind c = .ok fields
  slots : ∀ {c slots}, memo.slots? c = some slots → t.slots c = .ok slots

variable {memo} {t : ClassTable}

theorem sound_empty : Sound t {} := by
  refine ⟨?_, ?_⟩
  · intro kind c fields h
    cases kind <;> simp [fields?] at h
  · intro c slots h
    simp [slots?] at h

theorem Sound.addEvent (h : Sound t memo) (event : Event) : Sound t (memo.addEvent event) :=
  ⟨fun hf ↦ h.fields (by simpa using hf), fun hs ↦ h.slots (by simpa using hs)⟩

theorem Sound.setFields (h : Sound t memo) {kind : FieldKind} {c : ClassId}
    {fields : List FieldEntry} (hfields : t.fieldsOf kind c = .ok fields) :
    Sound t (memo.setFields kind c fields) := by
  refine ⟨?_, fun hs ↦ h.slots (by simpa using hs)⟩
  intro kind' c' fields' hf
  rw [fields?_setFields] at hf
  split at hf
  · rename_i heq
    rw [← heq.1, ← heq.2, hfields, Option.some.inj hf]
  · exact h.fields hf

theorem Sound.setSlots (h : Sound t memo) {c : ClassId} {slots : List Slot}
    (hslots : t.slots c = .ok slots) : Sound t (memo.setSlots c slots) := by
  refine ⟨fun hf ↦ h.fields (by simpa using hf), ?_⟩
  intro c' slots' hs
  rw [slots?_setSlots] at hs
  split at hs
  · rename_i heq
    rw [← heq, hslots, Option.some.inj hs]
  · exact h.slots hs

end Memo

/-! ## Work that history does not show in -/

-- work goes on with what its first part comes to, unless that is a fault.
theorem run_bind {α β : Type} (x : Recall α) (f : α → Recall β) (memo : Memo) :
    (x >>= f).run.run memo =
      match x.run.run memo with
      | (.error fault, between) => (.error fault, between)
      | (.ok a, between) => (f a).run.run between := by
  rw [ExceptT.run_bind, StateT.run_bind]
  rcases x.run.run memo with ⟨fault | a, between⟩ <;> rfl

/-- On a sound memo the work ends in the given outcome, and it leaves a sound memo behind. -/
def Faithful {α : Type} (t : ClassTable) (work : Recall α) (outcome : Except Fault α) : Prop :=
  ∀ memo, memo.Sound t → ∃ after, work.run.run memo = (outcome, after) ∧ after.Sound t

section faithful

variable {α β : Type} {t : ClassTable}

theorem faithful_lift (outcome : Except Fault α) : Faithful t (liftM outcome) outcome :=
  fun memo h ↦ ⟨memo, rfl, h⟩

theorem Faithful.bind {x : Recall α} {a : Except Fault α} {f : α → Recall β}
    {g : α → Except Fault β} (hx : Faithful t x a) (hf : ∀ v, Faithful t (f v) (g v)) :
    Faithful t (x >>= f) (a >>= g) := by
  intro memo h
  rcases hx memo h with ⟨between, hrun, hbetween⟩
  rw [run_bind, hrun]
  cases a with
  | error fault => exact ⟨between, rfl, hbetween⟩
  | ok v => exact hf v between hbetween

theorem faithful_logged (answer : Answer) : Faithful t (logged answer) (.ok answer) := by
  intro memo h
  cases answer with
  | internalError error => exact ⟨memo.addEvent (.internalError error), rfl, h.addEvent _⟩
  | _ => exact ⟨memo, rfl, h⟩

-- recalling fields is faithful when the work on the class above is.
theorem faithful_recallFields {kind : FieldKind} {v : ClassView} {above : Recall (List FieldEntry)}
    {inherited : Except Fault (List FieldEntry)} (habove : Faithful t above inherited)
    (hlist : t.fieldsOf kind v.id = (· ++ v.fieldsOf kind) <$> inherited) :
    Faithful t (recallFields kind v above) (t.fieldsOf kind v.id) := by
  intro memo h
  rw [run_recallFields]
  cases hknown : memo.fields? kind v.id with
  | some fields => exact ⟨memo, by rw [h.fields hknown], h⟩
  | none =>
    rcases habove memo h with ⟨between, hrun, hbetween⟩
    rw [hrun, hlist]
    cases inherited with
    | error fault => exact ⟨between, rfl, hbetween⟩
    | ok fields =>
      -- the new list is remembered on top of what the work above has remembered
      exact ⟨_, rfl, (hbetween.addEvent _).setFields hlist⟩

-- recalling slots is faithful when the work on the class above is.
theorem faithful_recallSlots {v : ClassView} {above : Recall (List Slot)}
    {inherited : Except Fault (List Slot)} (habove : Faithful t above inherited)
    (hlist : t.slots v.id = v.slotsOver <$> inherited) :
    Faithful t (recallSlots v above) (t.slots v.id) := by
  intro memo h
  rw [run_recallSlots]
  cases hknown : memo.slots? v.id with
  | some slots => exact ⟨memo, by rw [h.slots hknown], h⟩
  | none =>
    rcases habove memo h with ⟨between, hrun, hbetween⟩
    rw [hrun, hlist]
    cases inherited with
    | error fault => exact ⟨between, rfl, hbetween⟩
    | ok slots => exact ⟨_, rfl, hbetween.setSlots hlist⟩

/-! ## Queries -/

theorem faithful_fieldsIn (h : t.Acyclic) (kind : FieldKind) (c : ClassId) :
    Faithful t (fieldsIn kind (t.lineage c)) (t.fieldsOf kind c) := by
  apply h.induction (motive := fun c ↦
    Faithful t (fieldsIn kind (t.lineage c)) (t.fieldsOf kind c))
  · intro c fault hv
    rw [h.lineage_of_error hv, h.fieldsOf_of_error hv]
    exact faithful_lift (.error fault)
  · intro c v hv hd
    have hlist : t.fieldsOf kind c = .ok (v.fieldsOf kind) := h.fieldsOf_of_root hv hd
    rw [h.lineage_of_root hv hd]
    rw [← ClassTable.id_of_view hv] at hlist ⊢
    exact faithful_recallFields (faithful_lift (.ok [])) hlist
  · intro c v d hv hstep ih
    have hlist : t.fieldsOf kind c = (· ++ v.fieldsOf kind) <$> t.fieldsOf kind d :=
      h.fieldsOf_of_extends hv hstep
    rw [h.lineage_of_extends hv hstep]
    rw [← ClassTable.id_of_view hv] at hlist ⊢
    exact faithful_recallFields ih hlist

theorem faithful_slotsIn (h : t.Acyclic) (c : ClassId) :
    Faithful t (slotsIn (t.lineage c)) (t.slots c) := by
  apply h.induction (motive := fun c ↦ Faithful t (slotsIn (t.lineage c)) (t.slots c))
  · intro c fault hv
    rw [h.lineage_of_error hv, h.slots_of_error hv]
    exact faithful_lift (.error fault)
  · intro c v hv hd
    have hlist := h.slots_of_root hv hd
    rw [h.lineage_of_root hv hd]
    rw [← ClassTable.id_of_view hv] at hlist ⊢
    exact faithful_recallSlots (faithful_lift (.ok [])) hlist
  · intro c v d hv hstep ih
    have hlist := h.slots_of_extends hv hstep
    rw [h.lineage_of_extends hv hstep]
    rw [← ClassTable.id_of_view hv] at hlist ⊢
    exact faithful_recallSlots ih hlist

-- a query is answered as the table alone would answer it, whatever is remembered.
theorem faithful_recall (h : t.Acyclic) (q : Query) : Faithful t (q.recall t) (q.answer t) := by
  cases q with
  | fields kind c => exact (faithful_fieldsIn h kind c).bind fun v ↦ faithful_lift (.ok _)
  | fieldIndex c f =>
    apply (faithful_fieldsIn h .perObject c).bind
    intro fields
    have hindex := (faithful_lift (t := t) (fieldIndexIn t fields c f)).bind faithful_logged
    rwa [show (fieldIndexIn t fields c f >>= Except.ok) = fieldIndexIn t fields c f from
      bind_pure _] at hindex
  | slots c => exact (faithful_slotsIn h c).bind fun v ↦ faithful_lift (.ok _)
  | slotIndex c m => exact (faithful_slotsIn h c).bind fun v ↦ faithful_lift (.ok _)
  | erasedClass ty context =>
    have herased := (faithful_lift (t := t) (Layout.erasedClass t ty context)).bind faithful_logged
    rwa [show (Layout.erasedClass t ty context >>= Except.ok) = Layout.erasedClass t ty context from
      bind_pure _] at herased
  | structName c => exact faithful_lift (Layout.structName t c)

end faithful

/-! ## Histories -/

/-- The answers to a series of queries, each worked out from the table alone, up to the first
fault. -/
def answerAll (t : ClassTable) : List Query → Transcript Answer
  | [] => ⟨[], none⟩
  | q :: queries =>
    match q.answer t with
    | .error fault => ⟨[], some fault⟩
    | .ok answer => (answerAll t queries).cons answer

/-- What a new layout remembers after a series of queries. -/
def memoAfter (t : ClassTable) (queries : List Query) : Memo := ((recallAll t queries).run {}).2

/-- The answer of a layout to a query that follows a series of others. -/
def answerAfter (t : ClassTable) (earlier : List Query) (q : Query) : Except Fault Answer :=
  ((q.recall t).run.run (memoAfter t earlier)).1

variable {t : ClassTable}

-- a series of queries is answered as the table alone would answer it, whatever is remembered.
theorem run_recallAll (h : t.Acyclic) (queries : List Query) {memo : Memo}
    (hmemo : memo.Sound t) :
    ∃ after, (recallAll t queries).run memo = (answerAll t queries, after) ∧ after.Sound t := by
  induction queries generalizing memo with
  | nil => exact ⟨memo, rfl, hmemo⟩
  | cons q queries ih =>
    -- the first query leaves a sound memo behind, and the others start from it
    obtain ⟨between, hfirst, hbetween⟩ := faithful_recall h q memo hmemo
    rw [recallAll, run_runAll_cons, hfirst, answerAll]
    cases q.answer t with
    | error fault => exact ⟨between, rfl, hbetween⟩
    | ok answer =>
      obtain ⟨after, hrest, hafter⟩ := ih hbetween
      rw [recallAll] at hrest
      exact ⟨after, by simp only [hrest], hafter⟩

theorem sound_memoAfter (h : t.Acyclic) (queries : List Query) : (memoAfter t queries).Sound t := by
  obtain ⟨memo, hrun, hmemo⟩ := run_recallAll h queries Memo.sound_empty
  rwa [memoAfter, hrun]

/-- The answer to a query does not depend on the queries before it. -/
theorem answerAfter_eq_answer (h : t.Acyclic) (earlier : List Query) (q : Query) :
    answerAfter t earlier q = q.answer t := by
  obtain ⟨after, hanswer, -⟩ := faithful_recall h q _ (sound_memoAfter h earlier)
  rw [answerAfter, hanswer]

end ObjectAbi.Layout
