import ObjectAbi.Proofs.ClassTable.Hierarchy

/-!
# Walks up the hierarchy

A walk up from a class passes the classes of its lineage, the lowest first, until it finds what it
looks for. Where every way up ends at the root, the test for subclasses is inheritance, and the
look-up of a field by its name takes the lowest class that has one. Read from the root down, a
lineage puts the members of a class in order: those of a class further up come first.
-/

namespace ObjectAbi

/-! ## Walks on lineages -/

namespace Lineage

variable {l : Lineage}

theorem Complete.meets_eq (h : l.Complete) (c : ClassId) :
    l.meets c = .ok (l.views.any fun v ↦ v.id = c) := by
  induction l with
  | root v => simp [meets, views]
  | heir v above ih =>
    rw [meets, ih h]
    by_cases hv : v.id = c <;> simp [views, hv]
  | broken d fault => exact h.elim

theorem Complete.findField_eq (h : l.Complete) (name : String) :
    l.findField name = .ok (l.views.findSome? fun v ↦ v.field? name) := by
  induction l with
  | root v => cases hv : v.field? name <;> simp [findField, views, hv]
  | heir v above ih =>
    rw [findField]
    cases hv : v.field? name with
    | none => simp [views, hv, ih h]
    | some f => simp [views, hv]
  | broken d fault => exact h.elim

end Lineage

/-! ## Walks from declared classes -/

namespace ClassTable

variable {t : ClassTable} {c d : ClassId}

-- further on in a lineage means strictly further up.
theorem Acyclic.pairwise_views (h : t.Acyclic) (ht : t.Consistent) (c : ClassId) :
    (t.lineage c).views.Pairwise fun v w ↦ t.InheritsProperly v.id w.id := by
  apply h.induction (motive := fun c ↦
    (t.lineage c).views.Pairwise fun v w ↦ t.InheritsProperly v.id w.id)
  · intro c fault hv
    rw [h.lineage_of_error hv]
    exact .nil
  · intro c v hv hd
    rw [h.lineage_of_root hv hd]
    exact List.pairwise_singleton _ _
  · intro c v d hv hstep ih
    rw [h.lineage_of_extends hv hstep]
    refine .cons (fun w hw ↦ ?_) ih
    rw [id_of_view hv]
    exact .head' hstep ((h.mem_views_iff ht).mp hw).2

section members

variable {α : Type} {own : ClassView → List α} {holds : α → Prop} {container : α → ClassId}
  (h : t.Acyclic) (ht : t.Consistent)
  (hown : ∀ {c v}, t.view c = .ok v → ∀ x, x ∈ own v ↔ holds x ∧ container x = c)

include h ht hown

-- what the classes of a lineage have of their own is what a class has or inherits.
theorem Acyclic.mem_flatMap_views_iff (hdeclared : ∀ x, holds x → t.Declared (container x))
    {x : α} :
    x ∈ (t.lineage c).views.reverse.flatMap own ↔ holds x ∧ t.Inherits c (container x) := by
  simp only [List.mem_flatMap, List.mem_reverse, h.mem_views_iff ht]
  refine ⟨fun hx ↦ ?_, fun hx ↦ ?_⟩
  · obtain ⟨v, ⟨hview, hinherits⟩, hx⟩ := hx
    obtain ⟨hholds, hcontainer⟩ := (hown hview x).mp hx
    exact ⟨hholds, hcontainer ▸ hinherits⟩
  · obtain ⟨hholds, hinherits⟩ := hx
    obtain ⟨v, hview⟩ := ht.exists_view (hdeclared x hholds)
    have hid := id_of_view hview
    exact ⟨v, ⟨hid ▸ hview, hid ▸ hinherits⟩, (hown hview x).mpr ⟨hholds, rfl⟩⟩

-- from the root down, an order of members is that of their classes, and within one class its own.
theorem Acyclic.pairwise_flatMap_views {R : α → α → Prop}
    (hwithin : ∀ {c v}, t.view c = .ok v → (own v).Pairwise R)
    (hacross : ∀ x y, t.InheritsProperly (container y) (container x) → R x y) :
    ((t.lineage c).views.reverse.flatMap own).Pairwise R := by
  have hview : ∀ v ∈ (t.lineage c).views, t.view v.id = .ok v := fun v hv ↦
    ((h.mem_views_iff ht).mp hv).1
  rw [List.pairwise_flatMap, List.pairwise_reverse]
  refine ⟨fun v hv ↦ hwithin (hview v (List.mem_reverse.mp hv)), ?_⟩
  refine (h.pairwise_views ht c).imp_of_mem fun hv hw hproper x hx y hy ↦ hacross x y ?_
  rw [((hown (hview _ hw) x).mp hx).2, ((hown (hview _ hv) y).mp hy).2]
  exact hproper

end members

-- a class is found on the way up from itself, whether it is declared or not.
theorem isSubclass_self (t : ClassTable) (c : ClassId) : t.isSubclass c c = .ok true := by
  rw [isSubclass, lineage, lineageWithin]
  cases hv : t.view c with
  | error fault => simp [Lineage.meets]
  | ok v => cases hd : v.decl.superclass? <;> simp [hd, Lineage.meets, id_of_view hv]

/-- The test for subclasses comes to an end, and says whether the class inherits. -/
theorem Rooted.exists_isSubclass (h : t.Rooted) (ht : t.Consistent) (hc : t.Declared c)
    (d : ClassId) : ∃ b, t.isSubclass c d = .ok b ∧ (b = true ↔ t.Inherits c d) := by
  refine ⟨_, (h.complete ht hc).meets_eq d, ?_⟩
  simp only [List.any_eq_true, decide_eq_true_eq, h.acyclic.mem_views_iff ht]
  refine ⟨fun hv ↦ ?_, fun hinherits ↦ ?_⟩
  · obtain ⟨v, ⟨-, hinherits⟩, rfl⟩ := hv
    exact hinherits
  · obtain ⟨v, hv⟩ := ht.exists_view (h.declared_of_inherits hc hinherits)
    have hid := id_of_view hv
    exact ⟨v, ⟨hid ▸ hv, hid ▸ hinherits⟩, hid⟩

theorem Rooted.isSubclass_iff (h : t.Rooted) (ht : t.Consistent) (hc : t.Declared c) :
    t.isSubclass c d = .ok true ↔ t.Inherits c d := by
  obtain ⟨b, hb, hinherits⟩ := h.exists_isSubclass ht hc d
  rw [hb, Except.ok.injEq, hinherits]

end ClassTable

end ObjectAbi
