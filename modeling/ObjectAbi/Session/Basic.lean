import ObjectAbi.Layout.Memo
import ObjectAbi.Session.Request

/-!
# Sessions

A session starts from the built-in classes, declares, and answers questions, and keeps a log.
-/

namespace ObjectAbi

structure Session where
  table : ClassTable := Builtin.table
  log : Array Event := #[]

namespace Session

/-- The event that a declaration leaves in the log before it is carried out. -/
def announcement? : Declaration → Option Event
  | .newClass name .. => some (.classDeclared name)
  | _ => none

def serve : Request → ExceptT Fault (StateM Session) Reply
  | .declare d => do
    modify fun s => { s with log := s.log ++ (announcement? d).toArray }
    let (id, table) ← ExceptT.mk (return (← get).table.declare d)
    modify fun s => { s with table := table }
    return .declared id
  | .ask q => do ExceptT.mk (return q.answer (← get).table)
  | .layout queries => do
    let (answers, memo) := (Layout.recallAll (← get).table queries).run {}
    modify fun s => { s with log := s.log ++ memo.log }
    return .layout answers

/-- Carries out requests in a new session, and returns the log as well. -/
def run (requests : List Request) : Transcript Reply × List Event :=
  let (replies, session) := (runUntil Reply.isFinal serve requests).run {}
  (replies, session.log.toList)

end Session

end ObjectAbi
