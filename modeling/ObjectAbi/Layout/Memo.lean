import ObjectAbi.Layout.Query
import ObjectAbi.Log
import ObjectAbi.Run

/-!
# Remembered layouts

A code generator asks for the same layouts again and again. It keeps the field lists and slots that
were worked out once, for the class that was asked for and for every class above it, and answers
later queries from them. The log shows each field list that had to be put together.
-/

namespace ObjectAbi.Layout

/-- The lists worked out so far, and the events on the way. -/
structure Memo where
  objectFields : Std.TreeMap ClassId (List FieldEntry) := ∅
  classFields : Std.TreeMap ClassId (List FieldEntry) := ∅
  slots : Std.TreeMap ClassId (List Slot) := ∅
  log : Array Event := #[]

namespace Memo

def fields? (memo : Memo) (kind : FieldKind) (c : ClassId) : Option (List FieldEntry) :=
  match kind with
  | .perObject => memo.objectFields[c]?
  | .perClass => memo.classFields[c]?

def setFields (memo : Memo) (kind : FieldKind) (c : ClassId) (fields : List FieldEntry) : Memo :=
  match kind with
  | .perObject => { memo with objectFields := memo.objectFields.insert c fields }
  | .perClass => { memo with classFields := memo.classFields.insert c fields }

def slots? (memo : Memo) (c : ClassId) : Option (List Slot) := memo.slots[c]?

def setSlots (memo : Memo) (c : ClassId) (slots : List Slot) : Memo :=
  { memo with slots := memo.slots.insert c slots }

def addEvent (memo : Memo) (event : Event) : Memo := { memo with log := memo.log.push event }

end Memo

/-- Work that may use what is remembered. What a step remembers stays when a later one fails. -/
abbrev Recall := ExceptT Fault (StateM Memo)

/-- The fields of one kind, from the memo or else from those of the class above. -/
def recallFields (kind : FieldKind) (v : ClassView) (above : Recall (List FieldEntry)) :
    Recall (List FieldEntry) := do
  match (← get).fields? kind v.id with
  | some fields => return fields
  | none =>
    let fields := (← above) ++ v.fieldsOf kind
    modify fun memo =>
      (memo.addEvent (.fieldsListed v.id v.decl.name kind fields.length)).setFields kind v.id fields
    return fields

-- what is remembered is returned as it is; otherwise the list is put together, logged and kept.
theorem run_recallFields (kind : FieldKind) (v : ClassView) (above : Recall (List FieldEntry))
    (memo : Memo) :
    (recallFields kind v above).run.run memo =
      match memo.fields? kind v.id with
      | some fields => (.ok fields, memo)
      | none =>
        match above.run.run memo with
        | (.error fault, memo) => (.error fault, memo)
        | (.ok inherited, memo) =>
          let fields := inherited ++ v.fieldsOf kind
          (.ok fields, (memo.addEvent
            (.fieldsListed v.id v.decl.name kind fields.length)).setFields kind v.id fields) := by
  unfold recallFields
  change StateT.run (ExceptT.run (match memo.fields? kind v.id with
    | some fields => _
    | none => _)) memo = _
  cases memo.fields? kind v.id with
  | some fields => rfl
  | none =>
    simp only [ExceptT.run_bind, StateT.run_bind]
    rcases above.run.run memo with ⟨fault | inherited, memo⟩ <;> rfl

def fieldsIn (kind : FieldKind) : Lineage → Recall (List FieldEntry)
  | .root v => recallFields kind v (return [])
  | .heir v above => recallFields kind v (fieldsIn kind above)
  | .broken _ fault => throw fault

/-- The slots of a class, from the memo or else from those of the class above. -/
def recallSlots (v : ClassView) (above : Recall (List Slot)) : Recall (List Slot) := do
  match (← get).slots? v.id with
  | some slots => return slots
  | none =>
    let slots := v.slotsOver (← above)
    modify fun memo => memo.setSlots v.id slots
    return slots

-- what is remembered is returned as it is; otherwise the slots are worked out and kept.
theorem run_recallSlots (v : ClassView) (above : Recall (List Slot)) (memo : Memo) :
    (recallSlots v above).run.run memo =
      match memo.slots? v.id with
      | some slots => (.ok slots, memo)
      | none =>
        match above.run.run memo with
        | (.error fault, memo) => (.error fault, memo)
        | (.ok inherited, memo) =>
          let slots := v.slotsOver inherited
          (.ok slots, memo.setSlots v.id slots) := by
  unfold recallSlots
  change StateT.run (ExceptT.run (match memo.slots? v.id with
    | some slots => _
    | none => _)) memo = _
  cases memo.slots? v.id with
  | some slots => rfl
  | none =>
    simp only [ExceptT.run_bind, StateT.run_bind]
    rcases above.run.run memo with ⟨fault | inherited, memo⟩ <;> rfl

def slotsIn : Lineage → Recall (List Slot)
  | .root v => recallSlots v (return [])
  | .heir v above => recallSlots v (slotsIn above)
  | .broken _ fault => throw fault

/-- An answer that is an internal error is logged. -/
def logged (answer : Answer) : Recall Answer := do
  if let .internalError error := answer then
    modify fun memo => memo.addEvent (.internalError error)
  return answer

/-- The answer to a query, worked out from what is remembered. -/
def Query.recall (t : ClassTable) : Query → Recall Answer
  | fields kind c => do return .fields (← fieldsIn kind (t.lineage c))
  | fieldIndex c f => do
    let fields ← fieldsIn .perObject (t.lineage c)
    logged (← fieldIndexIn t fields c f)
  | slots c => do return .slots (← slotsIn (t.lineage c))
  | slotIndex c m => do return .slotIndex (slotIndex? (← slotsIn (t.lineage c)) m)
  | erasedClass ty context => do logged (← Layout.erasedClass t ty context)
  | structName c => Layout.structName t c

/-- The answers to a series of queries, each with what the earlier ones left behind. -/
def recallAll (t : ClassTable) (queries : List Query) : StateM Memo (Transcript Answer) :=
  runAll (Query.recall t) queries

end ObjectAbi.Layout
