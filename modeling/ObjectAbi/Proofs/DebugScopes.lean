import Mathlib.Data.List.Infix
import ObjectAbi.DebugScopes

/-!
# Well nested debug scopes

A debugger replays the recorded events in their order, so the record must never close a scope that
is not open. The recorder sees to it with a counter. It keeps every call in its place, except those
to close a scope that come when each scope opened so far is closed already; these it drops. The
counter is the number of scopes that are open, which is how many more scopes the record opens than
it closes.
-/

namespace ObjectAbi

namespace DebugEvent

/-! ## Opening and closing -/

def isOpening : DebugEvent → Bool
  | openScope _ => true
  | _ => false

/-- How many scopes are opened. -/
def openings (events : List DebugEvent) : Nat := events.countP isOpening

/-- How many times a scope is closed. -/
def closings (events : List DebugEvent) : Nat := events.count closeScope

section counts

variable (events events' : List DebugEvent)

@[simp] theorem counts_append :
    openings (events ++ events') = openings events + openings events' ∧
      closings (events ++ events') = closings events + closings events' :=
  ⟨List.countP_append, List.count_append⟩

@[simp] theorem counts_nil : openings [] = 0 ∧ closings [] = 0 := ⟨rfl, rfl⟩

@[simp] theorem counts_openScope (name : String) :
    openings (openScope name :: events) = openings events + 1 ∧
      closings (openScope name :: events) = closings events := by
  simp [openings, closings, isOpening, List.countP_cons]

@[simp] theorem counts_closeScope :
    openings (closeScope :: events) = openings events ∧
      closings (closeScope :: events) = closings events + 1 := by
  simp [openings, closings, isOpening]

@[simp] theorem counts_parameter (name : String) (arg : UInt32) (slot : ValueId) :
    openings (parameter name arg slot :: events) = openings events ∧
      closings (parameter name arg slot :: events) = closings events := by
  simp [openings, closings, isOpening]

end counts

/-- From the first event to the last one, every scope that is opened is closed as well, and no other
is closed. -/
inductive Balanced : List DebugEvent → Prop
  | nil : Balanced []
  | parameter {rest : List DebugEvent} (name : String) (arg : UInt32) (slot : ValueId)
      (hrest : Balanced rest) : Balanced (.parameter name arg slot :: rest)
  | scope {inner rest : List DebugEvent} (name : String) (hinner : Balanced inner)
      (hrest : Balanced rest) : Balanced (.openScope name :: (inner ++ .closeScope :: rest))

/-- Every scope that the calls open is closed by a later one of them: by the one that a balanced
series of calls leads to. -/
def AllClosed (calls : List DebugEvent) : Prop :=
  ∀ before name after, calls = before ++ .openScope name :: after →
    ∃ inner rest, Balanced inner ∧ after = inner ++ .closeScope :: rest

variable {calls events : List DebugEvent}

theorem Balanced.openings_eq (h : Balanced events) : openings events = closings events := by
  induction h with
  | nil => rfl
  | parameter name arg slot _ ih => simpa using ih
  | scope name _ _ ihinner ihrest =>
    simp only [counts_openScope, counts_append, counts_closeScope]
    omega

-- where more is closed than opened, some call closes a scope that was open before.
theorem exists_closing (h : openings events < closings events) :
    ∃ inner rest, Balanced inner ∧ events = inner ++ .closeScope :: rest := by
  induction hn : events.length using Nat.strong_induction_on generalizing events with
  | h n ih =>
    subst hn
    cases events with
    | nil => exact absurd h (Nat.not_lt_zero _)
    | cons event events =>
      cases event with
      | closeScope => exact ⟨[], events, .nil, rfl⟩
      | parameter name arg slot =>
        simp only [counts_parameter] at h
        obtain ⟨inner, rest, hinner, rfl⟩ := ih _ (Nat.lt_succ_self _) h rfl
        exact ⟨_, rest, hinner.parameter name arg slot, rfl⟩
      | openScope name =>
        -- the scope itself is closed, and what comes after it still closes more than it opens
        simp only [counts_openScope] at h
        obtain ⟨inner, rest, hinner, rfl⟩ := ih _ (Nat.lt_succ_self _) (by omega) rfl
        have heq := hinner.openings_eq
        simp only [counts_append, counts_closeScope] at h
        have hshorter : rest.length < (openScope name :: (inner ++ closeScope :: rest)).length := by
          simp only [List.length_cons, List.length_append]
          omega
        obtain ⟨inner', rest', hinner', rfl⟩ := ih _ hshorter (by omega) rfl
        exact ⟨_, rest', hinner.scope name hinner', by simp⟩

theorem AllClosed.of_isSuffix {part : List DebugEvent} (h : AllClosed calls)
    (hpart : part <:+ calls) : AllClosed part := by
  rintro before name after rfl
  obtain ⟨start, rfl⟩ := hpart
  exact h (start ++ before) name after (List.append_assoc _ _ _).symm

theorem AllClosed.openings_le (h : AllClosed calls) : openings calls ≤ closings calls := by
  induction hn : calls.length using Nat.strong_induction_on generalizing calls with
  | h n ih =>
    subst hn
    cases calls with
    | nil => exact Nat.le_refl 0
    | cons call calls =>
      have hrest := ih _ (Nat.lt_succ_self _) (h.of_isSuffix (List.suffix_cons call calls)) rfl
      cases call with
      | closeScope =>
        simp only [counts_closeScope]
        omega
      | parameter name arg slot => simpa using hrest
      | openScope name =>
        -- up to the call that closes the scope the counts agree
        obtain ⟨inner, rest, hinner, rfl⟩ := h [] name calls rfl
        have heq := hinner.openings_eq
        have hsuffix : rest <:+ openScope name :: (inner ++ closeScope :: rest) :=
          ⟨openScope name :: (inner ++ [closeScope]), by simp⟩
        have hshorter : rest.length < (openScope name :: (inner ++ closeScope :: rest)).length := by
          simp only [List.length_cons, List.length_append]
          omega
        have hle := ih _ hshorter (h.of_isSuffix hsuffix) rfl
        simp only [counts_openScope, counts_append, counts_closeScope]
        omega

/-- All scopes are closed exactly if no final part of the calls opens more than it closes. -/
theorem allClosed_iff :
    AllClosed calls ↔ ∀ part, part <:+ calls → openings part ≤ closings part := by
  refine ⟨fun h part hpart ↦ (h.of_isSuffix hpart).openings_le, ?_⟩
  rintro h before name after rfl
  have hle := h (openScope name :: after) (List.suffix_append before _)
  simp only [counts_openScope] at hle
  exact exists_closing hle

instance (calls : List DebugEvent) : Decidable (AllClosed calls) :=
  decidable_of_iff (∀ part ∈ calls.tails, openings part ≤ closings part) <| by
    simp only [List.mem_tails, allClosed_iff]

/-- The calls without those to close a scope that come when all earlier scopes are closed. -/
def withoutStray (calls : List DebugEvent) : List DebugEvent :=
  (calls.zipIdx.filter fun (call, k) ↦
    ¬ (call = .closeScope ∧ AllClosed (calls.take k))).map (·.1)

theorem withoutStray_append_singleton (calls : List DebugEvent) (call : DebugEvent) :
    withoutStray (calls ++ [call]) =
      withoutStray calls ++ if call = .closeScope ∧ AllClosed calls then [] else [call] := by
  -- the calls before an earlier call are the same
  have hearlier : ∀ p ∈ calls.zipIdx, (calls ++ [call]).take p.2 = calls.take p.2 := fun p hp ↦
    List.take_append_of_le_length (Nat.le_of_lt (List.snd_lt_of_mem_zipIdx hp))
  have hlast : (calls ++ [call]).take calls.length = calls := List.take_left
  rw [withoutStray, List.zipIdx_append, List.filter_append, List.map_append, withoutStray]
  congr 1
  · refine congrArg _ (List.filter_congr fun p hp ↦ ?_)
    simp only [hearlier p hp]
  · rw [Nat.zero_add, List.zipIdx_singleton, List.filter_singleton]
    simp only [hlast]
    by_cases h : call = .closeScope ∧ AllClosed calls <;> simp [h]

/-! ## Open scopes -/

/-- So many of the scopes that the calls open are open after the last call: as many as a final part
of the calls opens more than it closes, at the most. -/
structure LeavesOpen (calls : List DebugEvent) (n : Nat) : Prop where
  le : ∀ part, part <:+ calls → openings part ≤ closings part + n
  attained : ∃ part, part <:+ calls ∧ openings part = closings part + n

namespace LeavesOpen

variable {n : Nat}

theorem nil : LeavesOpen [] 0 := by
  refine ⟨fun part hpart ↦ ?_, [], List.nil_suffix, rfl⟩
  rw [List.suffix_nil.mp hpart]
  exact Nat.le_refl 0

theorem allClosed_iff (h : LeavesOpen calls n) : AllClosed calls ↔ n = 0 := by
  rw [DebugEvent.allClosed_iff]
  refine ⟨fun hle ↦ ?_, fun hn part hpart ↦ ?_⟩
  · obtain ⟨part, hpart, heq⟩ := h.attained
    have hpart := hle part hpart
    omega
  · simpa [hn] using h.le part hpart

-- a call opens a scope, closes one if one is open, or does neither.
theorem append_singleton (h : LeavesOpen calls n) (call : DebugEvent) :
    LeavesOpen (calls ++ [call]) (n + openings [call] - closings [call]) := by
  constructor
  · intro part hpart
    obtain rfl | ⟨start, rfl, hstart⟩ := List.suffix_concat_iff.mp hpart
    · exact Nat.zero_le _
    · have hle := h.le start hstart
      simp only [counts_append]
      omega
  · by_cases hclose : closings [call] ≤ n + openings [call]
    · obtain ⟨part, hpart, heq⟩ := h.attained
      refine ⟨part ++ [call], List.suffix_concat_iff.mpr (.inr ⟨part, rfl, hpart⟩), ?_⟩
      simp only [counts_append]
      omega
    · refine ⟨[], List.nil_suffix, ?_⟩
      simp only [counts_nil]
      omega

end LeavesOpen

end DebugEvent

/-! ## The recorder -/

namespace DebugScopes

open DebugEvent

variable {d : DebugScopes} {calls : List DebugEvent}

theorem level_record (d : DebugScopes) (call : DebugEvent) : (d.record call).level = d.level := by
  unfold record
  split
  · cases call with
    | closeScope => cases d.depth <;> rfl
    | _ => rfl
  · rfl

theorem record_of_not_isEnabled (h : ¬ d.isEnabled) (call : DebugEvent) : d.record call = d :=
  if_neg h

theorem record_of_stray (hdepth : d.depth = 0) : d.record .closeScope = d := by
  by_cases h : d.isEnabled
  · simp [record, h, hdepth]
  · exact record_of_not_isEnabled h _

-- any other call is kept, and the scope that it opens or closes is counted.
theorem record_of_kept (h : d.isEnabled) {call : DebugEvent}
    (hkept : ¬ (call = .closeScope ∧ d.depth = 0)) :
    (d.record call).events.toList = d.events.toList ++ [call] ∧
      closings [call] + (d.record call).depth = openings [call] + d.depth := by
  cases call with
  | openScope name => simp [record, h, Nat.add_comm]
  | closeScope =>
    obtain ⟨depth, hdepth⟩ := Nat.exists_eq_succ_of_ne_zero (mt (And.intro rfl) hkept)
    simp [record, h, hdepth, Nat.add_comm]
  | parameter name arg slot => simp [record, h]

/-! ## Every record is well nested -/

/-- The record never closes a scope that is not open, and the counter says how many are. -/
structure WellNested (d : DebugScopes) : Prop where
  closings_le : ∀ part, part <+: d.events.toList → closings part ≤ openings part
  depth_eq : closings d.events.toList + d.depth = openings d.events.toList

theorem wellNested_new (level : DebugLevel) : WellNested { level := level } := by
  refine ⟨fun part hpart ↦ ?_, rfl⟩
  rw [List.prefix_nil.mp hpart]
  exact Nat.le_refl 0

theorem WellNested.record (h : d.WellNested) (call : DebugEvent) : (d.record call).WellNested := by
  by_cases henabled : d.isEnabled
  · by_cases hstray : call = .closeScope ∧ d.depth = 0
    · obtain ⟨rfl, hdepth⟩ := hstray
      rwa [record_of_stray hdepth]
    · obtain ⟨hevents, hdepth⟩ := record_of_kept henabled hstray
      have hcounts : closings (d.events.toList ++ [call]) + (d.record call).depth =
          openings (d.events.toList ++ [call]) := by
        have hbefore := h.depth_eq
        simp only [counts_append]
        omega
      refine ⟨fun part hpart ↦ ?_, hevents ▸ hcounts⟩
      rw [hevents, List.prefix_concat_iff] at hpart
      obtain rfl | hpart := hpart
      · omega
      · exact h.closings_le part hpart
  · rwa [record_of_not_isEnabled henabled]

theorem wellNested_recordAll (h : d.WellNested) (calls : List DebugEvent) :
    (d.recordAll calls).WellNested := by
  induction calls generalizing d with
  | nil => exact h
  | cons call calls ih => exact ih (h.record call)

/-! ## What is recorded -/

/-- The record keeps the calls that it should, and the counter says how many scopes these leave
open. -/
structure Records (calls : List DebugEvent) (d : DebugScopes) : Prop where
  enabled : d.isEnabled
  events : d.events.toList = withoutStray calls
  depth : LeavesOpen calls d.depth

theorem records_new : Records [] { level := .full } := ⟨rfl, rfl, .nil⟩

theorem Records.record (h : Records calls d) (call : DebugEvent) :
    Records (calls ++ [call]) (d.record call) := by
  have henabled : (d.record call).isEnabled := by
    rw [isEnabled, level_record]
    exact h.enabled
  have hopen := h.depth.append_singleton call
  refine ⟨henabled, ?_, ?_⟩
  · rw [withoutStray_append_singleton, ← h.events]
    simp only [h.depth.allClosed_iff]
    by_cases hstray : call = .closeScope ∧ d.depth = 0
    · obtain ⟨rfl, hdepth⟩ := hstray
      simp [record_of_stray hdepth, hdepth]
    · rw [if_neg hstray, (record_of_kept h.enabled hstray).1]
  · by_cases hstray : call = .closeScope ∧ d.depth = 0
    · obtain ⟨rfl, hdepth⟩ := hstray
      simpa [record_of_stray hdepth, hdepth] using hopen
    · have hcounts := (record_of_kept h.enabled hstray).2
      rwa [show (d.record call).depth = d.depth + openings [call] - closings [call] by omega]

theorem records_recordAll (calls : List DebugEvent) :
    Records calls (recordAll { level := .full } calls) := by
  induction calls using List.reverseRecOn with
  | nil => exact records_new
  | append_singleton calls call ih =>
    rw [recordAll, List.foldl_concat]
    exact ih.record call

theorem recordAll_of_not_isEnabled (h : ¬ d.isEnabled) (calls : List DebugEvent) :
    d.recordAll calls = d := by
  induction calls with
  | nil => rfl
  | cons call calls ih => rwa [recordAll, List.foldl_cons, record_of_not_isEnabled h]

/-- At level `none` nothing is recorded. At level `full` the record holds the calls in their order,
without just those to close a scope that come when all scopes opened earlier are closed. At either
level no beginning of the record closes more scopes than it opens, and the depth is the number of
scopes that the record opens less the number that it closes. -/
theorem recorded_scopes_well_nested (calls : List DebugEvent) :
    ((recordAll { level := .none } calls).depth = 0 ∧
      (recordAll { level := .none } calls).events = #[]) ∧
    (recordAll { level := .full } calls).events.toList = withoutStray calls ∧
    ∀ level : DebugLevel,
      (∀ part, part <+: (recordAll { level := level } calls).events.toList →
        closings part ≤ openings part) ∧
      closings (recordAll { level := level } calls).events.toList +
          (recordAll { level := level } calls).depth =
        openings (recordAll { level := level } calls).events.toList := by
  have hnone : recordAll { level := .none } calls = { level := .none } :=
    recordAll_of_not_isEnabled (by decide) calls
  refine ⟨by rw [hnone]; exact ⟨rfl, rfl⟩, (records_recordAll calls).events, fun level ↦ ?_⟩
  have hnested := wellNested_recordAll (wellNested_new level) calls
  exact ⟨hnested.closings_le, hnested.depth_eq⟩

-- the first call and the fourth find no scope open
example : withoutStray [.closeScope, .openScope "f", .closeScope, .closeScope, .openScope "g"] =
    [.openScope "f", .closeScope, .openScope "g"] := by
  decide +kernel

end DebugScopes

end ObjectAbi
