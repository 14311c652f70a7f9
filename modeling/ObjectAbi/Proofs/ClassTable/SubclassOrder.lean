import ObjectAbi.Proofs.ClassTable.Growth
import ObjectAbi.Proofs.ClassTable.Walks

/-!
# The order of classes

Only the root is ever declared without a superclass: a class that is given none extends the root.
So where every type that a class extends stands for a declared class and no class inherits from
itself, each way up ends at the root. Subclassing then is the order of a tree: there is one way up
from a class, and all that lies on it can be compared.
-/

namespace ObjectAbi

/-! ## Orders of trees -/

/-- Among the nodes the relation is an order with the root on top, and what lies above one node can
be compared. -/
structure IsTreeOrder {α : Type} (node : α → Prop) (le : α → α → Prop) (root : α) : Prop where
  refl : ∀ {a}, node a → le a a
  trans : ∀ {a b c}, node a → node b → node c → le a b → le b c → le a c
  antisymm : ∀ {a b}, node a → node b → le a b → le b a → a = b
  comparable : ∀ {a b c}, node a → node b → node c → le c a → le c b → le a b ∨ le b a
  le_root : ∀ {a}, node a → le a root

namespace ClassTable

variable {t t' : ClassTable} {a b c : ClassId}

/-! ## The one class without a superclass -/

/-- The root was declared without a superclass, and every other class with one. -/
def OneRoot (t : ClassTable) : Prop :=
  ∀ c d, t.classDecl c = .ok d → (d.superclass = none ↔ c = Builtin.object)

theorem oneRoot_builtin : Builtin.table.OneRoot := by
  intro c d hd
  obtain ⟨rfl, rfl⟩ | ⟨rfl, rfl⟩ | ⟨rfl, rfl⟩ := builtin_get? (Arena.get_eq_ok_iff.mp hd) <;> decide

-- a class that was not there before is a new one, which extends a type.
theorem superclass_of_new {d : Declaration} {id : DeclaredId} {decl : ClassDecl}
    (h : t.declare d = .ok (id, t')) (hc : ¬ t.Declared c) (hdecl : t'.classDecl c = .ok decl) :
    decl.superclass ≠ none := by
  have hc' := declared_iff.mpr ⟨decl, hdecl⟩
  obtain ⟨name, modifiers, superclass, typeParams, new, rfl, -, hadd⟩ | hmember := declare_cases h
  · obtain ⟨classes, hpush, rfl⟩ := addClass_eq_ok_iff.mp hadd
    have hget := Arena.get_eq_ok_iff.mp hdecl
    rw [Arena.get?_of_push hpush] at hget
    split at hget
    · rw [← Option.some.inj hget]
      exact Option.some_ne_none _
    · exact absurd (Arena.index_lt_of_get? hget) hc
  · -- adding a member declares no class
    have hcontainer : ∃ container, d.container? = some container := by
      obtain ⟨decl, f, rfl, -⟩ | ⟨decl, m, ⟨rfl, -⟩ | ⟨container, modifiers, formals, rfl, -⟩, -⟩ :=
        hmember <;> exact ⟨_, rfl⟩
    obtain ⟨container, hcontainer⟩ := hcontainer
    rw [Declared, (container_of_declare h hcontainer).2] at hc'
    exact absurd hc' hc

theorem OneRoot.declare {d : Declaration} {id : DeclaredId} (h : t.OneRoot) (ht : t.Consistent)
    (hd : t.declare d = .ok (id, t')) : t'.OneRoot := by
  intro c decl hdecl
  by_cases hc : t.Declared c
  · obtain ⟨old, hold⟩ := declared_iff.mp hc
    cases ((gains_of_declare hd).classDecl hold).symm.trans hdecl
    exact h c old hold
  · refine iff_of_false (superclass_of_new hd hc hdecl) ?_
    rintro rfl
    exact hc (ht.declared_builtin (by decide))

theorem Reached.oneRoot (h : t.Reached) : t.OneRoot := by
  obtain ⟨ds, hrun⟩ := h
  have hboth : t.Consistent ∧ t.OneRoot :=
    declareAll_preserves (motive := fun t ↦ t.Consistent ∧ t.OneRoot)
      (fun ht hd ↦ ⟨ht.1.declare hd, ht.2.declare ht.1 hd⟩) ⟨consistent_builtin, oneRoot_builtin⟩
      hrun
  exact hboth.2

/-! ## Ways up -/

/-- Every type that a class extends stands for a declared class at run time. -/
def ExtendsDeclared (t : ClassTable) : Prop :=
  ∀ c d, t.classDecl c = .ok d → ∀ ty ∈ d.superclass, ∃ e ∈ ty.erasedClass?, t.Declared e

theorem ExtendsDeclared.rooted (h : t.ExtendsDeclared) (hacyclic : t.Acyclic) : t.Rooted := by
  refine ⟨hacyclic, fun {c d} hstep ↦ ?_⟩
  obtain ⟨decl, hdecl, hd⟩ := bind_eq_ok_iff.mp hstep
  obtain ⟨ty, hty, herased⟩ := Option.bind_eq_some_iff.mp (Except.ok.inj hd)
  obtain ⟨e, he, hdeclared⟩ := h c decl hdecl ty hty
  cases herased.symm.trans he
  exact hdeclared

-- then a class inherits from none only if it extends no type.
theorem ExtendsDeclared.superclass_eq_none_iff (h : t.ExtendsDeclared) (hroot : t.OneRoot)
    (hc : t.Declared c) : t.superclass c = .ok none ↔ c = Builtin.object := by
  obtain ⟨d, hd⟩ := declared_iff.mp hc
  have hnone : d.superclass? = none ↔ d.superclass = none := by
    refine ⟨fun hd' ↦ Option.eq_none_iff_forall_ne_some.mpr fun ty hty ↦ ?_, fun hd' ↦ ?_⟩
    · obtain ⟨e, he, -⟩ := h c d hd ty hty
      rw [ClassDecl.superclass?, hty, Option.bind_some, he] at hd'
      cases hd'
    · rw [ClassDecl.superclass?, hd']
      rfl
  have hsuperclass : t.superclass c = .ok d.superclass? := bind_eq_ok_iff.mpr ⟨d, hd, rfl⟩
  rw [← hroot c d hd, ← hnone, hsuperclass, Except.ok.injEq]

theorem ExtendsDeclared.inherits_object (h : t.ExtendsDeclared) (hacyclic : t.Acyclic)
    (ht : t.Consistent) (hroot : t.OneRoot) (hc : t.Declared c) :
    t.Inherits c Builtin.object := by
  apply (h.rooted hacyclic).induction ht (motive := fun c ↦ t.Inherits c Builtin.object) _ _ hc
  · intro c v hv hd
    have hnone : t.superclass c = .ok none := by rw [superclass_of_view hv, hd]
    rw [(h.superclass_eq_none_iff hroot (declared_of_view hv)).mp hnone]
  · exact fun c v d hv hstep ih ↦ .head hstep ih

theorem rightUnique_extends (t : ClassTable) : Relator.RightUnique t.Extends := by
  intro c d e hd he
  exact Option.some.inj (Except.ok.inj (hd.symm.trans he))

theorem Acyclic.inherits_antisymm (h : t.Acyclic) (hab : t.Inherits a b) (hba : t.Inherits b a) :
    a = b := by
  obtain heq | hproper := Relation.reflTransGen_iff_eq_or_transGen.mp hab
  · exact heq.symm
  · exact absurd (hproper.trans_left hba) (h a)

/-! ## The order -/

/-- The test for subclasses answers for all declared classes. It is the order of a tree on them, and
the root of the tree is the one class that inherits from none. -/
theorem subclassing_is_tree_order (hreached : t.Reached) (hextends : t.ExtendsDeclared)
    (hacyclic : t.Acyclic) :
    (∀ a b, t.Declared a → t.Declared b → ∃ answer, t.isSubclass a b = .ok answer) ∧
      IsTreeOrder t.Declared (fun a b ↦ t.isSubclass a b = .ok true) Builtin.object ∧
      t.Declared Builtin.object ∧
      ∀ c, t.Declared c → (t.superclass c = .ok none ↔ c = Builtin.object) := by
  have ht := hreached.consistent
  have hrooted := hextends.rooted hacyclic
  have hinherits : ∀ {a b}, t.Declared a → (t.isSubclass a b = .ok true ↔ t.Inherits a b) :=
    fun ha ↦ hrooted.isSubclass_iff ht ha
  refine ⟨fun a b ha _ ↦ ?_, ⟨fun ha ↦ ?_, fun ha hb hc hab hbc ↦ ?_, fun ha hb hab hba ↦ ?_,
    fun ha hb hc hca hcb ↦ ?_, fun ha ↦ ?_⟩, ht.declared_builtin (by decide), fun c hc ↦ ?_⟩
  · obtain ⟨answer, hanswer, -⟩ := hrooted.exists_isSubclass ht ha b
    exact ⟨answer, hanswer⟩
  · exact (hinherits ha).mpr .refl
  · exact (hinherits ha).mpr (((hinherits ha).mp hab).trans ((hinherits hb).mp hbc))
  · exact hacyclic.inherits_antisymm ((hinherits ha).mp hab) ((hinherits hb).mp hba)
  · rw [hinherits ha, hinherits hb]
    exact Relation.ReflTransGen.total_of_right_unique t.rightUnique_extends
      ((hinherits hc).mp hca) ((hinherits hc).mp hcb)
  · exact (hinherits ha).mpr (hextends.inherits_object hacyclic ht hreached.oneRoot ha)
  · exact hextends.superclass_eq_none_iff hreached.oneRoot hc

-- tiles are declared before the classes above them, and one of those extends a type parameter
theorem tile_is_below_comparable_classes :
    (Shapes.table.isSubclass Shapes.square Shapes.shape = .ok true ∨
        Shapes.table.isSubclass Shapes.shape Shapes.square = .ok true) ∧
      Shapes.table.isSubclass Shapes.tile Builtin.object = .ok true ∧
      Shapes.table.superclass Shapes.shape ≠ .ok none := by
  have hextends : Shapes.table.ExtendsDeclared := by
    simp only [ExtendsDeclared, forall_classDecl_iff]
    decide +kernel
  have hdeclared : Shapes.table.Declared Shapes.tile ∧ Shapes.table.Declared Shapes.square ∧
      Shapes.table.Declared Shapes.shape := by decide +kernel
  obtain ⟨htile, hsquare, hshape⟩ := hdeclared
  obtain ⟨-, horder, -, hroot⟩ :=
    subclassing_is_tree_order Shapes.reached hextends Shapes.rooted.acyclic
  refine ⟨horder.comparable hsquare hshape htile ?_ ?_, horder.le_root htile, fun hnone ↦ ?_⟩
  · decide +kernel
  · decide +kernel
  · exact absurd ((hroot _ hshape).mp hnone) (by decide)

end ClassTable

end ObjectAbi
