import ObjectAbi.Layout.Object

/-!
# Positions in lists

A position is that of the first element which passes a test. It stays when the list grows at the
end, and it is missing from a list of no more elements than there are 32-bit numbers only if no
element passes. Where just one element can pass, a position found is its position.
-/

namespace ObjectAbi.Layout

variable {α : Type} {p : α → Bool} {xs ys : List α}

theorem position32?_of_isPrefix {i : UInt32} (hstart : xs <+: ys) (hi : position32? p xs = some i) :
    position32? p ys = some i := by
  unfold position32? at hi ⊢
  cases hx : xs.findIdx? p with
  | none =>
    rw [hx] at hi
    cases hi
  | some n => rwa [hstart.findIdx?_eq_some hx, ← hx]

theorem exists_of_position32? {i : UInt32} (hi : position32? p xs = some i) : ∃ x ∈ xs, p x := by
  unfold position32? at hi
  cases hfound : xs.findIdx? p with
  | none =>
    rw [hfound] at hi
    cases hi
  | some k =>
    obtain ⟨hlt, hp, -⟩ := List.findIdx?_eq_some_iff_getElem.mp hfound
    exact ⟨xs[k], List.getElem_mem hlt, hp⟩

theorem position32?_eq_none_iff (hcapacity : xs.length ≤ Ident.capacity) :
    position32? p xs = none ↔ ∀ x ∈ xs, ¬ p x := by
  unfold position32?
  cases hfound : xs.findIdx? p with
  | none => simpa using List.findIdx?_eq_none_iff.mp hfound
  | some k =>
    obtain ⟨hlt, hp, -⟩ := List.findIdx?_eq_some_iff_getElem.mp hfound
    simp only [if_pos (Nat.lt_of_lt_of_le hlt hcapacity)]
    exact iff_of_false (Option.some_ne_none _) fun hnone ↦ hnone _ (List.getElem_mem hlt) hp

-- where one element alone can pass the test, a position found is its position.
theorem position32?_of_unique {k : Nat} {x : α} (hcapacity : xs.length ≤ Ident.capacity)
    (hk : xs[k]? = some x) (hunique : ∀ j y, xs[j]? = some y → p y → j = k) :
    position32? p xs = if p x then some (.ofNat k) else none := by
  obtain ⟨hlt, hx⟩ := List.getElem?_eq_some_iff.mp hk
  have hother : ∀ j (hj : j < xs.length), p xs[j] → j = k := fun j hj ↦
    hunique j xs[j] (List.getElem?_eq_getElem hj)
  unfold position32?
  by_cases hp : p x
  · have hfound : xs.findIdx? p = some k := by
      refine List.findIdx?_eq_some_iff_getElem.mpr ⟨hlt, hx ▸ hp, fun j hj hpass ↦ ?_⟩
      exact Nat.ne_of_lt hj (hother j (Nat.lt_trans hj hlt) hpass)
    simp only [hfound, hp, if_pos (Nat.lt_of_lt_of_le hlt hcapacity), if_true]
  · have hnone : xs.findIdx? p = none := by
      refine List.findIdx?_eq_none_iff.mpr fun y hy ↦ ?_
      obtain ⟨j, hj, rfl⟩ := List.mem_iff_getElem.mp hy
      refine Bool.eq_false_iff.mpr fun hpass ↦ hp ?_
      have heq := hother j hj hpass
      subst heq
      exact hx ▸ hpass
    simp only [hnone, hp]
    rfl

-- behind elements that fail the test, the first one to pass it has their number as its position.
theorem position32?_append_cons {x : α} (hskipped : ∀ y ∈ xs, ¬ p y) (hp : p x)
    (hcapacity : xs.length < Ident.capacity) :
    position32? p (xs ++ x :: ys) = some (.ofNat xs.length) := by
  have hnone : xs.findIdx? p = none :=
    List.findIdx?_eq_none_iff.mpr fun y hy ↦ by simpa using hskipped y hy
  have hfound : (xs ++ x :: ys).findIdx? p = some xs.length := by
    simp [List.findIdx?_append, hnone, List.findIdx?_cons, hp]
  rw [position32?, hfound]
  exact if_pos hcapacity

end ObjectAbi.Layout
