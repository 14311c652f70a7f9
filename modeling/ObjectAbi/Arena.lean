import ObjectAbi.Ident

/-!
# Arenas

An arena holds the declarations of one kind. A declaration is added at the end, receives the next
identifier, and is never removed; a look-up under an identifier that was not handed out is a fault.
-/

namespace ObjectAbi

/-- A misuse of the class table that no answer can be given for. It ends the run in which it
happens, unlike an internal error, which is an answer. -/
inductive Fault
  /-- An identifier was looked up that has not been declared: `index` is its position, `size` the
  number of things that are declared. -/
  | outOfRange (size index : Nat)
  /-- All identifiers of one kind are in use. -/
  | exhausted
  /-- A class inherits from itself, so that the way up from it has no end. -/
  | cyclicInheritance
deriving DecidableEq, Repr

def Fault.message : Fault → String
  | .outOfRange size index => s!"index out of bounds: the len is {size} but the index is {index}"
  | .exhausted => "no identifier is left"
  | .cyclicInheritance => "superclass chain has no end"

/-- Declarations of kind `e`, each at the position that its identifier names. -/
structure Arena (e : Entity) (α : Type) where
  items : Array α
  size_le : items.size ≤ Ident.capacity := by decide

structure Entry (e : Entity) (α : Type) where
  id : Ident e
  decl : α
deriving DecidableEq, Repr

namespace Arena

variable {e : Entity} {α : Type}

def size (a : Arena e α) : Nat := a.items.size

def entries (a : Arena e α) : List (Entry e α) :=
  a.items.toList.mapIdx fun n d => ⟨.ofIndex n, d⟩

def get? (a : Arena e α) (i : Ident e) : Option α := a.items[i.index]?

def get (a : Arena e α) (i : Ident e) : Except Fault α :=
  match a.get? i with
  | some d => .ok d
  | none => .error (.outOfRange a.size i.index)

def entry (a : Arena e α) (i : Ident e) : Except Fault (Entry e α) := do
  return ⟨i, ← a.get i⟩

/-- Adds a declaration at the end, under the next identifier. -/
def push (a : Arena e α) (d : α) : Except Fault (Ident e × Arena e α) :=
  if h : a.items.size < Ident.capacity then
    .ok (.ofIndex a.items.size, ⟨a.items.push d, by rw [Array.size_push]; exact h⟩)
  else
    .error .exhausted

def update (a : Arena e α) (i : Ident e) (f : α → α) : Except Fault (Arena e α) :=
  if i.index < a.size then
    .ok ⟨a.items.modify i.index f, by rw [Array.size_modify]; exact a.size_le⟩
  else
    .error (.outOfRange a.size i.index)

/-! ## What look-ups see -/

theorem get_eq_ok_iff {a : Arena e α} {i : Ident e} {d : α} :
    a.get i = .ok d ↔ a.get? i = some d := by
  unfold get
  cases a.get? i <;> simp

theorem get_eq_error_iff {a : Arena e α} {i : Ident e} {f : Fault} :
    a.get i = .error f ↔ a.size ≤ i.index ∧ f = .outOfRange a.size i.index := by
  unfold get get? size
  by_cases h : i.index < a.items.size
  · simp [h, Nat.not_le_of_lt h]
  · simp [h, Nat.le_of_not_lt h, eq_comm]

theorem get?_isSome {a : Arena e α} {i : Ident e} : (a.get? i).isSome ↔ i.index < a.size := by
  simp [get?, size]

section push

variable {a b : Arena e α} {i : Ident e} {d : α}

theorem push_eq_ok_iff :
    a.push d = .ok (i, b) ↔
      a.size < Ident.capacity ∧ i = .ofIndex a.size ∧ b.items = a.items.push d := by
  unfold push size
  split
  · rename_i h
    cases b
    simp [h, eq_comm]
  · rename_i h
    simp [h]

theorem index_of_push (h : a.push d = .ok (i, b)) : i.index = a.size := by
  obtain ⟨room, rfl, -⟩ := push_eq_ok_iff.1 h
  exact Ident.index_ofIndex room

theorem size_of_push (h : a.push d = .ok (i, b)) : b.size = a.size + 1 := by
  obtain ⟨-, -, items⟩ := push_eq_ok_iff.1 h
  simp [size, items]

-- adding a declaration changes no earlier one.
theorem get?_of_push (h : a.push d = .ok (i, b)) (j : Ident e) :
    b.get? j = if j = i then some d else a.get? j := by
  have index := index_of_push h
  obtain ⟨-, -, items⟩ := push_eq_ok_iff.1 h
  unfold get? size at *
  rw [items, Array.getElem?_push, ← index]
  simp [Ident.index_inj]

end push

section update

variable {a b : Arena e α} {i : Ident e} {f : α → α}

theorem update_eq_ok_iff :
    a.update i f = .ok b ↔ i.index < a.size ∧ b.items = a.items.modify i.index f := by
  unfold update
  split
  · rename_i h
    cases b
    simp [h, eq_comm]
  · rename_i h
    simp [h]

theorem size_of_update (h : a.update i f = .ok b) : b.size = a.size := by
  simp [size, (update_eq_ok_iff.1 h).2]

-- an update changes the declaration under its identifier only.
theorem get?_of_update (h : a.update i f = .ok b) (j : Ident e) :
    b.get? j = if j = i then (a.get? j).map f else a.get? j := by
  unfold get?
  rw [(update_eq_ok_iff.1 h).2, Array.getElem?_modify]
  simp [Ident.index_inj, eq_comm]

end update

end Arena

end ObjectAbi
