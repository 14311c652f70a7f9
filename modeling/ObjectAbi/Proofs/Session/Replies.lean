import ObjectAbi.Proofs.ClassTable.Runs
import ObjectAbi.Proofs.Session.ClosedTables
import ObjectAbi.Session.Basic

/-!
# Replies of a session

A request meets the table that the declarations before it have led to, and its reply depends on
nothing else. So every table that a session replies from is reached from the built-in classes, and
whatever holds of all reached tables holds of the replies of a session. The last theorem uses this:
where the requests ask about declared things on closed tables, a session replies to every one of
them.
-/

namespace ObjectAbi

namespace Session

/-! ## One request -/

namespace Request

/-- What the request adds to the table. -/
def declaration? : Request → Option Declaration
  | declare d => some d
  | ask _ | layout _ => none

/-- The reply to the request, worked out from the table that it meets. -/
def reply (t : ClassTable) : Request → Except Fault Reply
  | declare d => do return .declared (← t.declare d).1
  | ask q => q.answer t
  | layout queries => .ok (.layout ((Layout.recallAll t queries).run {}).1)

end Request

variable {d : Declaration} {s : Session}

-- a declaration is announced in the log first, and carried out after that.
theorem run_serve_declare (d : Declaration) (s : Session) :
    (serve (.declare d)).run.run s =
      StateT.run (ExceptT.run (do
        let next ← ExceptT.mk (m := StateM Session) (pure (s.table.declare d))
        modify fun s : Session => { s with table := next.2 }
        return Reply.declared next.1)) { s with log := s.log ++ (announcement? d).toArray } :=
  rfl

theorem run_serve_declare_of_ok {next : DeclaredId × ClassTable}
    (h : s.table.declare d = .ok next) :
    (serve (.declare d)).run.run s =
      (.ok (.declared next.1), ⟨next.2, s.log ++ (announcement? d).toArray⟩) := by
  rw [run_serve_declare, h]
  rfl

-- the announcement stays in the log although nothing is declared.
theorem run_serve_declare_of_error {fault : Fault} (h : s.table.declare d = .error fault) :
    (serve (.declare d)).run.run s =
      (.error fault, { s with log := s.log ++ (announcement? d).toArray }) := by
  rw [run_serve_declare, h]
  rfl

theorem run_serve_ask (q : Question) (s : Session) :
    (serve (.ask q)).run.run s = (q.answer s.table, s) :=
  rfl

theorem run_serve_layout (queries : List Layout.Query) (s : Session) :
    (serve (.layout queries)).run.run s =
      (.ok (.layout ((Layout.recallAll s.table queries).run {}).1),
        { s with log := s.log ++ ((Layout.recallAll s.table queries).run {}).2.log }) :=
  rfl

/-- A request is replied to from the table that it meets. -/
theorem reply_serve (r : Request) (s : Session) :
    ((serve r).run.run s).1 = r.reply s.table := by
  cases r with
  | declare d =>
    cases hdeclare : s.table.declare d with
    | error fault =>
      rw [run_serve_declare_of_error hdeclare, Request.reply, hdeclare]
      rfl
    | ok next =>
      rw [run_serve_declare_of_ok hdeclare, Request.reply, hdeclare]
      rfl
  | ask q => rw [run_serve_ask, Request.reply]
  | layout queries => rw [run_serve_layout, Request.reply]

variable {r : Request}

/-- A request that is replied to leaves the table with what it declares. -/
theorem table_serve {reply : Reply} (h : r.reply s.table = .ok reply) :
    s.table.declareAll r.declaration?.toList = .ok ((serve r).run.run s).2.table := by
  cases r with
  | declare d =>
    obtain ⟨next, hdeclare, -⟩ := bind_eq_ok_iff.mp h
    rw [run_serve_declare_of_ok hdeclare]
    exact bind_eq_ok_iff.mpr ⟨next, hdeclare, rfl⟩
  | ask q => rfl
  | layout queries => rfl

/-- A request that ends in a fault leaves the table as it was. -/
theorem table_serve_of_fault {fault : Fault} (h : r.reply s.table = .error fault) :
    ((serve r).run.run s).2.table = s.table := by
  cases r with
  | declare d =>
    cases hdeclare : s.table.declare d with
    | error _ => rw [run_serve_declare_of_error hdeclare]
    | ok next =>
      rw [Request.reply, hdeclare] at h
      cases h
  | ask q => rfl
  | layout queries => rfl

theorem reached_serve (r : Request) (h : s.table.Reached) :
    ((serve r).run.run s).2.table.Reached := by
  cases hreply : r.reply s.table with
  | error fault => exact (table_serve_of_fault hreply).symm ▸ h
  | ok reply => exact h.declareAll (table_serve hreply)

/-! ## A series of requests -/

/-- The request at position `k` of the series is `r`, and `now` is the table that it meets when the
series starts from the table `t`. -/
structure Meets (t : ClassTable) (requests : List Request) (k : Nat) (r : Request)
    (now : ClassTable) : Prop where
  request : requests[k]? = some r
  table : t.declareAll ((requests.take k).filterMap Request.declaration?) = .ok now

namespace Meets

variable {t next now : ClassTable} {r r' : Request} {rest : List Request} {k : Nat}

theorem zero (t : ClassTable) (r : Request) (rest : List Request) : Meets t (r :: rest) 0 r t :=
  ⟨rfl, rfl⟩

theorem succ (hnext : t.declareAll r.declaration?.toList = .ok next)
    (h : Meets next rest k r' now) : Meets t (r :: rest) (k + 1) r' now := by
  refine ⟨h.request, ?_⟩
  rw [List.take_succ_cons, filterMap_cons_eq_append]
  exact ClassTable.declareAll_append hnext h.table

end Meets

/-- What a session that starts from the table `t` leaves behind of a series of requests. -/
structure Transcribes (t : ClassTable) (requests : List Request) (transcript : Transcript Reply) :
    Prop where
  answer : ∀ k reply, transcript.answers[k]? = some reply →
    ∃ r now, Meets t requests k r now ∧ r.reply now = .ok reply
  /-- The first request without a reply is the one that ended in the fault. -/
  fault : ∀ fault, transcript.fault = some fault →
    ∃ r now, Meets t requests transcript.answers.length r now ∧ r.reply now = .error fault
  ended : transcript.fault = none → transcript.answers.length = requests.length ∨
    ∃ reply ∈ transcript.answers, reply.isFinal

namespace Transcribes

variable {t next : ClassTable} {r : Request} {rest : List Request} {reply : Reply}
  {transcript : Transcript Reply}

theorem nil (t : ClassTable) : Transcribes t [] ⟨[], none⟩ where
  answer _ _ hk := by simp at hk
  fault _ hfault := by cases hfault
  ended _ := .inl rfl

theorem faulted {fault : Fault} (h : r.reply t = .error fault) :
    Transcribes t (r :: rest) ⟨[], some fault⟩ where
  answer _ _ hk := by simp at hk
  fault _ hfault := by
    cases hfault
    exact ⟨r, t, .zero t r rest, h⟩
  ended hfault := by cases hfault

theorem final (h : r.reply t = .ok reply) (hfinal : reply.isFinal) :
    Transcribes t (r :: rest) ⟨[reply], none⟩ where
  answer k a hk := by
    cases k with
    | zero =>
      cases Option.some.inj hk
      exact ⟨r, t, .zero t r rest, h⟩
    | succ k => simp at hk
  fault _ hfault := by cases hfault
  ended _ := .inr ⟨reply, List.mem_singleton_self reply, hfinal⟩

theorem cons (h : r.reply t = .ok reply) (hnext : t.declareAll r.declaration?.toList = .ok next)
    (hrest : Transcribes next rest transcript) :
    Transcribes t (r :: rest) (transcript.cons reply) where
  answer k a hk := by
    cases k with
    | zero =>
      cases Option.some.inj hk
      exact ⟨r, t, .zero t r rest, h⟩
    | succ k =>
      obtain ⟨r', now, hmeets, ha⟩ := hrest.answer k a hk
      exact ⟨r', now, hmeets.succ hnext, ha⟩
  fault fault hfault := by
    obtain ⟨r', now, hmeets, ha⟩ := hrest.fault fault hfault
    exact ⟨r', now, hmeets.succ hnext, ha⟩
  ended hfault := by
    rcases hrest.ended hfault with hlength | ⟨a, ha, hfinal⟩
    · exact .inl (congrArg (· + 1) hlength)
    · exact .inr ⟨a, List.mem_cons_of_mem _ ha, hfinal⟩

end Transcribes

theorem transcribes_runUntil (requests : List Request) (s : Session) :
    Transcribes s.table requests ((runUntil Reply.isFinal serve requests).run s).1 := by
  induction requests generalizing s with
  | nil => exact .nil s.table
  | cons r rest ih =>
    have hreply := reply_serve r s
    rw [run_runUntil_cons]
    rcases hserve : (serve r).run.run s with ⟨fault | reply, next⟩
    · rw [hserve] at hreply
      exact .faulted hreply.symm
    · rw [hserve] at hreply
      have hnext := table_serve hreply.symm
      rw [hserve] at hnext
      by_cases hfinal : reply.isFinal
      · simp only [if_pos hfinal]
        exact .final hreply.symm hfinal
      · simp only [if_neg hfinal]
        exact .cons hreply.symm hnext (ih next)

/-- However a session ends, its table is one that declarations lead to. -/
theorem reached_runUntil (requests : List Request) {s : Session} (h : s.table.Reached) :
    ((runUntil Reply.isFinal serve requests).run s).2.table.Reached :=
  runUntil_preserves (fun s : Session ↦ s.table.Reached) _
    (fun r _ hbetween ↦ reached_serve r hbetween) requests h

/-- Every reply of a session is worked out from the table that its request meets, a fault ends the
session at the first request that cannot be carried out, and all these tables are reached. -/
theorem run_transcribes (requests : List Request) :
    Transcribes Builtin.table requests (run requests).1 :=
  transcribes_runUntil requests {}

theorem Meets.reached {requests : List Request} {k : Nat} {r : Request} {now : ClassTable}
    (h : Meets Builtin.table requests k r now) : now.Reached :=
  ⟨_, h.table⟩

/-! ## Sessions on closed tables -/

/-- The request can be carried out: the declaration goes through, or it asks about declared things
on a closed table where no class inherits from itself. -/
def Request.Answerable (t : ClassTable) : Request → Prop
  | .declare d => ∃ next, t.declare d = .ok next
  | .ask q => t.Closed ∧ t.Acyclic ∧ q.Declared t
  | .layout queries => t.Closed ∧ t.Acyclic ∧ ∀ q ∈ queries, q.Declared t

-- no question is about a whole series of layout queries, which alone could end a session.
theorem not_isFinal_of_answer {t : ClassTable} {q : Question} {reply : Reply}
    (h : q.answer t = .ok reply) : ¬ reply.isFinal := by
  cases q with
  | builtins | roster | classNamed | erasedClass | erase | traits | sameType | classSymbols =>
    cases h
    exact Bool.false_ne_true
  | classDecl | fieldDecl | methodDecl | superclass | isSubclass | findField | findMethod | display
  | displayErased | erasedField =>
    obtain ⟨_, -, hreply⟩ := bind_eq_ok_iff.mp h
    cases hreply
    exact Bool.false_ne_true
  | procedureSymbol | staticFieldSymbol =>
    obtain ⟨_, -, hsymbol⟩ := bind_eq_ok_iff.mp h
    obtain ⟨_, -, hreply⟩ := bind_eq_ok_iff.mp hsymbol
    cases hreply
    exact Bool.false_ne_true

theorem Request.Answerable.exists_reply {t : ClassTable} (ht : t.Reached) {r : Request}
    (h : r.Answerable t) : ∃ reply, r.reply t = .ok reply ∧ ¬ reply.isFinal := by
  cases r with
  | declare d =>
    obtain ⟨next, hnext⟩ := h
    exact ⟨.declared next.1, bind_eq_ok_iff.mpr ⟨next, hnext, rfl⟩, Bool.false_ne_true⟩
  | ask q =>
    obtain ⟨hclosed, hacyclic, hq⟩ := h
    obtain ⟨reply, hreply⟩ :=
      Session.exists_reply ht.consistent hclosed (hclosed.rooted ht.consistent hacyclic) hq
    exact ⟨reply, hreply, not_isFinal_of_answer hreply⟩
  | layout queries =>
    obtain ⟨hclosed, hacyclic, hqueries⟩ := h
    obtain ⟨answers, hanswers, -⟩ :=
      exists_layout_answers ht.consistent (hclosed.rooted ht.consistent hacyclic) hqueries
    refine ⟨_, rfl, ?_⟩
    rw [hanswers]
    exact Bool.false_ne_true

/-- Where every request can be carried out on the table that it meets, the session replies to all of
them. -/
theorem answerable_requests_answered {requests : List Request}
    (h : ∀ k r now, Meets Builtin.table requests k r now → r.Answerable now) :
    (run requests).1.fault = none ∧ (run requests).1.answers.length = requests.length := by
  have hrun := run_transcribes requests
  have hnone : (run requests).1.fault = none := by
    rw [Option.eq_none_iff_forall_ne_some]
    intro fault hfault
    obtain ⟨r, now, hmeets, herror⟩ := hrun.fault fault hfault
    obtain ⟨reply, hreply, -⟩ := (h _ r now hmeets).exists_reply hmeets.reached
    cases herror.symm.trans hreply
  refine ⟨hnone, (hrun.ended hnone).resolve_right ?_⟩
  rintro ⟨reply, hmem, hfinal⟩
  obtain ⟨k, hk⟩ := List.getElem?_of_mem hmem
  obtain ⟨r, now, hmeets, hreply⟩ := hrun.answer k reply hk
  obtain ⟨reply', hreply', hnotFinal⟩ := (h k r now hmeets).exists_reply hmeets.reached
  cases hreply.symm.trans hreply'
  exact hnotFinal hfinal

end Session

end ObjectAbi
