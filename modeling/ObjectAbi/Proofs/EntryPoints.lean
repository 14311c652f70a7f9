import Mathlib.Data.List.Nodup
import ObjectAbi.EntryPoints

/-!
# Registration of entry points

The same function can be offered as an entry point again and again, under one class or under
several. The first call for it registers it, and only this call is told that the function is new.
So the list follows from the calls alone: it holds the first call for each function, in the order of
the calls.
-/

namespace ObjectAbi

namespace EntryPoints

/-- The first of some entry points to have the function. -/
def firstFor? (f : FunctionId) (points : List EntryPoint) : Option EntryPoint :=
  points.find? (·.function = f)

section firstFor

variable {f : FunctionId} {p : EntryPoint} {points : List EntryPoint}

theorem firstFor?_append (f : FunctionId) (points points' : List EntryPoint) :
    firstFor? f (points ++ points') = (firstFor? f points).or (firstFor? f points') :=
  List.find?_append

theorem firstFor?_eq_none_iff : firstFor? f points = none ↔ ∀ p ∈ points, p.function ≠ f := by
  simp [firstFor?]

-- an entry point at the end is found only if nothing before it has its function.
theorem or_firstFor?_singleton {found : Option EntryPoint} (h : p.function = f → found.isSome) :
    found.or (firstFor? f [p]) = found := by
  unfold firstFor?
  rw [List.find?_singleton]
  by_cases hp : p.function = f
  · exact Option.or_of_isSome (h hp)
  · rw [if_neg (by simpa using hp), Option.or_none]

theorem firstFor?_eq_some_iff_mem (hnodup : (points.map (·.function)).Nodup) :
    firstFor? p.function points = some p ↔ p ∈ points := by
  constructor
  · exact List.mem_of_find?_eq_some
  · intro hp
    cases hfirst : firstFor? p.function points with
    | none => exact absurd rfl (firstFor?_eq_none_iff.mp hfirst p hp)
    | some q =>
      have hq : q ∈ points := List.mem_of_find?_eq_some hfirst
      have hfunction : q.function = p.function := by simpa using List.find?_some hfirst
      rw [List.inj_on_of_nodup_map hnodup hq hp hfunction]

end firstFor

variable {e : EntryPoints} {p : EntryPoint}

/-! ## One call -/

theorem contains_eq (e : EntryPoints) (f : FunctionId) :
    e.contains f = (firstFor? f e.entries).isSome :=
  List.isSome_find?.symm

theorem register_of_contains (h : e.contains p.function) : e.register p = (false, e) := if_pos h

theorem register_of_not_contains (h : ¬ e.contains p.function) :
    e.register p = (true, ⟨e.entries ++ [p]⟩) :=
  if_neg h

theorem register_isNew (e : EntryPoints) (p : EntryPoint) :
    (e.register p).1 = !e.contains p.function := by
  by_cases h : e.contains p.function
  · simp [register_of_contains h, h]
  · simp [register_of_not_contains h, h]

theorem register_eq_self (h : (e.register p).1 = false) : (e.register p).2 = e := by
  rw [register_isNew, Bool.not_eq_false'] at h
  rw [register_of_contains h]

-- a call can change what is found for its own function only, and only if nothing was found.
theorem firstFor?_register (e : EntryPoints) (p : EntryPoint) (f : FunctionId) :
    firstFor? f (e.register p).2.entries = (firstFor? f e.entries).or (firstFor? f [p]) := by
  by_cases h : e.contains p.function
  · rw [register_of_contains h]
    rw [contains_eq] at h
    exact (or_firstFor?_singleton (by rintro rfl; exact h)).symm
  · rw [register_of_not_contains h]
    exact firstFor?_append f e.entries [p]

theorem nodup_register (h : (e.entries.map (·.function)).Nodup) (p : EntryPoint) :
    ((e.register p).2.entries.map (·.function)).Nodup := by
  by_cases hp : e.contains p.function
  · rwa [register_of_contains hp]
  · have hnew : p.function ∉ e.entries.map (·.function) := by
      rw [contains_eq, Option.not_isSome_iff_eq_none, firstFor?_eq_none_iff] at hp
      simpa using hp
    rw [register_of_not_contains hp, List.map_append, List.map_singleton, ← List.concat_eq_append,
      List.nodup_concat]
    exact ⟨hnew, h⟩

/-! ## A series of calls -/

theorem registerAll_cons (e : EntryPoints) (p : EntryPoint) (calls : List EntryPoint) :
    e.registerAll (p :: calls) =
      ((e.register p).1 :: ((e.register p).2.registerAll calls).1,
        ((e.register p).2.registerAll calls).2) :=
  rfl

theorem registerAll_append (e : EntryPoints) (calls calls' : List EntryPoint) :
    e.registerAll (calls ++ calls') =
      ((e.registerAll calls).1 ++ ((e.registerAll calls).2.registerAll calls').1,
        ((e.registerAll calls).2.registerAll calls').2) := by
  induction calls generalizing e with
  | nil => rfl
  | cons p calls ih =>
    rw [List.cons_append, registerAll_cons, ih, registerAll_cons, List.cons_append]

theorem length_registerAll (e : EntryPoints) (calls : List EntryPoint) :
    (e.registerAll calls).1.length = calls.length := by
  induction calls generalizing e with
  | nil => rfl
  | cons p calls ih => rw [registerAll_cons, List.length_cons, ih, List.length_cons]

/-- A call is answered by what the calls before it have left. -/
theorem getElem?_registerAll (e : EntryPoints) (before : List EntryPoint) (p : EntryPoint)
    (after : List EntryPoint) :
    (e.registerAll (before ++ p :: after)).1[before.length]? =
      some ((e.registerAll before).2.register p).1 := by
  rw [registerAll_append, ← length_registerAll e before,
    List.getElem?_append_right (Nat.le_refl _), Nat.sub_self]
  rfl

theorem firstFor?_registerAll (e : EntryPoints) (calls : List EntryPoint) (f : FunctionId) :
    firstFor? f (e.registerAll calls).2.entries =
      (firstFor? f e.entries).or (firstFor? f calls) := by
  induction calls generalizing e with
  | nil => exact Option.or_none.symm
  | cons p calls ih =>
    rw [registerAll_cons, ih, firstFor?_register, Option.or_assoc, ← firstFor?_append,
      List.singleton_append]

theorem nodup_registerAll (h : (e.entries.map (·.function)).Nodup) (calls : List EntryPoint) :
    ((e.registerAll calls).2.entries.map (·.function)).Nodup := by
  induction calls generalizing e with
  | nil => exact h
  | cons p calls ih => exact ih (nodup_register h p)

/-- The calls that were answered with `true`. -/
def accepted (calls : List EntryPoint) (news : List Bool) : List EntryPoint :=
  ((calls.zip news).filter (·.2)).map (·.1)

theorem entries_registerAll (e : EntryPoints) (calls : List EntryPoint) :
    (e.registerAll calls).2.entries = e.entries ++ accepted calls (e.registerAll calls).1 := by
  induction calls generalizing e with
  | nil => exact (List.append_nil _).symm
  | cons p calls ih =>
    rw [registerAll_cons, ih]
    by_cases h : e.contains p.function
    · rw [register_of_contains h]
      simp [accepted]
    · rw [register_of_not_contains h]
      simp [accepted]

/-- Requests to register, one after the other, are answered as the series of calls is, and the list
is then the one that the series leaves. -/
theorem serveAll_calls (e : EntryPoints) (calls : List EntryPoint) :
    e.serveAll (calls.map .register ++ [.list]) =
      (e.registerAll calls).1.map .registered ++ [.listed (e.registerAll calls).2] := by
  induction calls generalizing e with
  | nil => rfl
  | cons p calls ih =>
    show .registered (e.register p).1 ::
      (e.register p).2.serveAll (calls.map .register ++ [.list]) = _
    rw [ih]
    rfl

-- what is found for a function after some calls is found among the calls.
theorem isNew_after_iff (before : List EntryPoint) (p : EntryPoint) :
    ((registerAll {} before).2.register p).1 = true ↔ ∀ q ∈ before, q.function ≠ p.function := by
  have hfirst : firstFor? p.function (registerAll {} before).2.entries =
      firstFor? p.function before :=
    firstFor?_registerAll {} before p.function
  rw [register_isNew, contains_eq, hfirst, Bool.not_eq_true', Option.isSome_eq_false_iff,
    Option.isNone_iff_eq_none, firstFor?_eq_none_iff]

/-- What requests show of a series of calls is its answers and, at the end, the list that it leaves.
No function is listed twice, however often the calls repeat it. The list holds the calls that were
answered with `true`, in their order, and they are the first calls for their functions. A call is
answered with `true` exactly if no earlier call was for its function, and where it is answered with
`false` the list is afterwards what it was before. -/
theorem first_calls_registered (calls : List EntryPoint) :
    serveAll {} (calls.map .register ++ [.list]) =
      (registerAll {} calls).1.map .registered ++ [.listed (registerAll {} calls).2] ∧
    ((registerAll {} calls).2.entries.map (·.function)).Nodup ∧
    (registerAll {} calls).1.length = calls.length ∧
    (registerAll {} calls).2.entries = accepted calls (registerAll {} calls).1 ∧
    (∀ p, p ∈ (registerAll {} calls).2.entries ↔ firstFor? p.function calls = some p) ∧
    ∀ before p after, calls = before ++ p :: after →
      ((registerAll {} calls).1[before.length]? = some true ↔
        ∀ q ∈ before, q.function ≠ p.function) ∧
      ((registerAll {} calls).1[before.length]? = some false →
        (registerAll {} (before ++ [p])).2 = (registerAll {} before).2) := by
  have hnodup : ((registerAll {} calls).2.entries.map (·.function)).Nodup :=
    nodup_registerAll (e := {}) List.nodup_nil calls
  refine ⟨serveAll_calls {} calls, hnodup, length_registerAll {} calls,
    entries_registerAll {} calls, fun p ↦ ?_, ?_⟩
  · rw [← firstFor?_eq_some_iff_mem hnodup, firstFor?_registerAll {} calls p.function]
    rfl
  · rintro before p after rfl
    rw [getElem?_registerAll, Option.some_inj, Option.some_inj]
    refine ⟨isNew_after_iff before p, fun hknown ↦ ?_⟩
    rw [registerAll_append]
    exact register_eq_self hknown

-- the second call is for a registered function, and its class is forgotten
example : registerAll {} [⟨⟨3⟩, "app.Main"⟩, ⟨⟨3⟩, "app.Tool"⟩, ⟨⟨4⟩, "app.Tool"⟩] =
    ([true, false, true], ⟨[⟨⟨3⟩, "app.Main"⟩, ⟨⟨4⟩, "app.Tool"⟩]⟩) := by
  decide

end EntryPoints

end ObjectAbi
