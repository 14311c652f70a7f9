import Mathlib.Data.List.Chain
import Mathlib.Data.List.Nodup
import Mathlib.Data.List.Perm.Subperm
import Mathlib.Logic.Relation
import ObjectAbi.ClassTable.Lineage
import ObjectAbi.Proofs.ClassTable.Members

/-!
# The class hierarchy

Inheritance as a relation between classes, and what it says about lineages. Where no class inherits
from itself, a way up meets every declared class at most once, so the bound on a lineage's length
never cuts one short: a lineage is the class on top of the lineage of the class above. The lineage
of a class therefore ends with the lineage of each class that it inherits from.
-/

namespace ObjectAbi

-- different identifiers below a bound are no more than the bound.
theorem Ident.length_le_of_nodup {e : Entity} {l : List (Ident e)} {n : Nat} (hnodup : l.Nodup)
    (hl : ∀ i ∈ l, i.index < n) : l.length ≤ n := by
  have hindex : (l.map index).Nodup := hnodup.map fun _ _ h ↦ index_inj.mp h
  have hrange : l.map index ⊆ List.range n := by
    intro k hk
    obtain ⟨i, hi, rfl⟩ := List.mem_map.mp hk
    exact List.mem_range.mpr (hl i hi)
  have hle := (hindex.subperm hrange).length_le
  rwa [List.length_map, List.length_range] at hle

/-! ## Classes with their members -/

theorem Arena.mapM_entry_eq_ok_iff {e : Entity} {α : Type} {a : Arena e α} {is : List (Ident e)}
    {xs : List (Entry e α)} :
    is.mapM a.entry = .ok xs ↔ xs.map (·.id) = is ∧ ∀ x ∈ xs, a.get x.id = .ok x.decl := by
  have hentry : ∀ i x, a.entry i = .ok x ↔ x.id = i ∧ a.get i = .ok x.decl := by
    intro i x
    simp only [entry, bind_eq_ok_iff]
    refine ⟨?_, ?_⟩
    · intro h
      rcases h with ⟨d, hd, h⟩
      cases Except.ok.inj h
      exact ⟨rfl, hd⟩
    · intro h
      rcases h with ⟨rfl, hd⟩
      exact ⟨x.decl, hd, rfl⟩
  simp only [mapM_eq_ok_iff, hentry]
  induction xs generalizing is with
  | nil => simp [eq_comm]
  | cons x xs ih =>
    cases is with
    | nil => simp
    | cons i is =>
      simp only [List.forall₂_cons, ih, List.map_cons, List.cons.injEq, List.forall_mem_cons]
      refine ⟨?_, ?_⟩
      · intro h
        rcases h with ⟨⟨rfl, hx⟩, rfl, hxs⟩
        exact ⟨⟨rfl, rfl⟩, hx, hxs⟩
      · intro h
        rcases h with ⟨⟨rfl, rfl⟩, hx, hxs⟩
        exact ⟨⟨rfl, hx⟩, rfl, hxs⟩

-- different entries of an arena are no more than the arena holds.
theorem Arena.length_le_of_nodup {e : Entity} {α : Type} {a : Arena e α} {xs : List (Entry e α)}
    (hnodup : (xs.map (·.id)).Nodup) (hlookup : ∀ x ∈ xs, a.get x.id = .ok x.decl) :
    xs.length ≤ a.size := by
  rw [← List.length_map (f := fun x : Entry e α ↦ x.id)]
  refine Ident.length_le_of_nodup hnodup fun i hi ↦ ?_
  obtain ⟨x, hx, rfl⟩ := List.mem_map.mp hi
  exact index_lt_of_get? (get_eq_ok_iff.mp (hlookup x hx))

-- the entries that a class lists are those of the members that name it as their container.
theorem Indexed.mem_entries_iff {e : Entity} {α : Type} {classes : Arena .classDecl ClassDecl}
    {members : Arena e α} {container : α → ClassId} {listed : ClassDecl → List (Ident e)}
    (h : Indexed classes members container listed) {c : ClassId} {d : ClassDecl}
    (hd : classes.get? c = some d) {entries : List (Entry e α)}
    (hids : entries.map (·.id) = listed d)
    (hlookup : ∀ x ∈ entries, members.get x.id = .ok x.decl) {x : Entry e α} :
    x ∈ entries ↔ members.get x.id = .ok x.decl ∧ container x.decl = c := by
  refine ⟨fun hx ↦ ⟨hlookup x hx, ?_⟩, fun hx ↦ ?_⟩
  · obtain ⟨m, hm, hcontainer⟩ :=
      (h.mem_listed_iff hd x.id).mp (hids ▸ List.mem_map_of_mem hx)
    cases hm.symm.trans (Arena.get_eq_ok_iff.mp (hlookup x hx))
    exact hcontainer
  · have hlisted : x.id ∈ listed d :=
      (h.mem_listed_iff hd x.id).mpr ⟨x.decl, Arena.get_eq_ok_iff.mp hx.1, hx.2⟩
    rw [← hids] at hlisted
    obtain ⟨y, hy, hid⟩ := List.mem_map.mp hlisted
    exact Arena.entry_eq_of_id_eq (hlookup y hy) hx.1 hid ▸ hy

namespace ClassTable

variable {t : ClassTable} {c d : ClassId} {v : ClassView}

-- a view shows the class and its members as the table has them, in the order of the lists.
theorem view_eq_ok_iff : t.view c = .ok v ↔
    v.id = c ∧ t.classDecl c = .ok v.decl ∧
    (v.fields.map (·.id) = v.decl.fields ∧ ∀ f ∈ v.fields, t.fieldDecl f.id = .ok f.decl) ∧
    v.methods.map (·.id) = v.decl.methods ∧ ∀ m ∈ v.methods, t.methodDecl m.id = .ok m.decl := by
  simp only [view, bind_eq_ok_iff, Arena.mapM_entry_eq_ok_iff, fieldDecl, methodDecl]
  refine ⟨?_, ?_⟩
  · intro h
    rcases h with ⟨decl, hdecl, fields, hfields, methods, hmethods, h⟩
    cases Except.ok.inj h
    exact ⟨rfl, hdecl, hfields, hmethods⟩
  · intro h
    rcases h with ⟨rfl, hdecl, hfields, hmethods⟩
    exact ⟨v.decl, hdecl, v.fields, hfields, v.methods, hmethods, rfl⟩

theorem classDecl_of_view (h : t.view c = .ok v) : t.classDecl c = .ok v.decl :=
  (view_eq_ok_iff.mp h).2.1

theorem id_of_view (h : t.view c = .ok v) : v.id = c := (view_eq_ok_iff.mp h).1

theorem declared_of_view (h : t.view c = .ok v) : t.Declared c :=
  declared_iff.mpr ⟨v.decl, classDecl_of_view h⟩

/-- The class itself declares the procedure: it lists it, and the table knows it as a procedure of
this class. -/
structure Declares (t : ClassTable) (c : ClassId) (m : MethodEntry) : Prop where
  lookup : t.methodDecl m.id = .ok m.decl
  container : m.decl.container = c
  listed : ∃ d, t.classDecl c = .ok d ∧ m.id ∈ d.methods

theorem Consistent.declares_of_mem_view (h : t.Consistent) (hv : t.view c = .ok v)
    {m : MethodEntry} (hm : m ∈ v.methods) : t.Declares c m := by
  rcases view_eq_ok_iff.mp hv with ⟨-, hdecl, -, hids, hlookup⟩
  have hlisted : m.id ∈ v.decl.methods := hids ▸ List.mem_map.mpr ⟨m, hm, rfl⟩
  have hget := Arena.get_eq_ok_iff.mp hdecl
  rcases (h.methods.mem_listed_iff hget m.id).mp hlisted with ⟨decl, hfound, hcontainer⟩
  cases hfound.symm.trans (Arena.get_eq_ok_iff.mp (hlookup m hm))
  exact ⟨hlookup m hm, hcontainer, v.decl, hdecl, hlisted⟩

-- a view shows just the procedures that name the class as their container.
theorem Consistent.mem_methods_of_view_iff (h : t.Consistent) (hv : t.view c = .ok v)
    {m : MethodEntry} :
    m ∈ v.methods ↔ t.methodDecl m.id = .ok m.decl ∧ m.decl.container = c := by
  obtain ⟨-, hdecl, -, hids, hlookup⟩ := view_eq_ok_iff.mp hv
  exact h.methods.mem_entries_iff (Arena.get_eq_ok_iff.mp hdecl) hids hlookup

-- a view shows just the fields that name the class as their container.
theorem Consistent.mem_fields_of_view_iff (h : t.Consistent) (hv : t.view c = .ok v)
    {f : FieldEntry} :
    f ∈ v.fields ↔ t.fieldDecl f.id = .ok f.decl ∧ f.decl.container = c := by
  obtain ⟨-, hdecl, ⟨hids, hlookup⟩, -⟩ := view_eq_ok_iff.mp hv
  exact h.fields.mem_entries_iff (Arena.get_eq_ok_iff.mp hdecl) hids hlookup

theorem Consistent.increasing_fields_of_view (h : t.Consistent) (hv : t.view c = .ok v) :
    v.fields.Pairwise fun f g ↦ f.id.index < g.id.index := by
  obtain ⟨-, hdecl, ⟨hids, -⟩, -⟩ := view_eq_ok_iff.mp hv
  have hincreasing := h.fields.increasing (Arena.get_eq_ok_iff.mp hdecl)
  rwa [← hids, List.pairwise_map] at hincreasing

-- on a consistent table a declared class can be looked up with its members.
theorem Consistent.exists_view (h : t.Consistent) (hc : t.Declared c) :
    ∃ v, t.view c = .ok v := by
  rcases declared_iff.mp hc with ⟨decl, hdecl⟩
  have hget := Arena.get_eq_ok_iff.mp hdecl
  have hfields : ∃ fields, decl.fields.mapM t.fields.entry = .ok fields := by
    refine exists_mapM_eq_ok fun f hf ↦ ?_
    rcases (h.fields.mem_listed_iff hget f).mp hf with ⟨fd, hfd, -⟩
    exact ⟨⟨f, fd⟩, bind_eq_ok_iff.mpr ⟨fd, Arena.get_eq_ok_iff.mpr hfd, rfl⟩⟩
  have hmethods : ∃ methods, decl.methods.mapM t.methods.entry = .ok methods := by
    refine exists_mapM_eq_ok fun m hm ↦ ?_
    rcases (h.methods.mem_listed_iff hget m).mp hm with ⟨md, hmd, -⟩
    exact ⟨⟨m, md⟩, bind_eq_ok_iff.mpr ⟨md, Arena.get_eq_ok_iff.mpr hmd, rfl⟩⟩
  rcases hfields with ⟨fields, hfields⟩
  rcases hmethods with ⟨methods, hmethods⟩
  refine ⟨⟨c, decl, fields, methods⟩, ?_⟩
  simp only [view, bind_eq_ok_iff]
  exact ⟨decl, hdecl, fields, hfields, methods, hmethods, rfl⟩

-- only a class that is not declared cannot be looked up.
theorem Consistent.view_eq_error_iff (h : t.Consistent) {fault : Fault} :
    t.view c = .error fault ↔
      ¬ t.Declared c ∧ fault = .outOfRange t.classes.size c.index := by
  by_cases hc : t.Declared c
  · obtain ⟨v, hv⟩ := h.exists_view hc
    simp [hv, hc]
  · have hdecl : t.classDecl c = .error (.outOfRange t.classes.size c.index) :=
      Arena.get_eq_error_iff.mpr ⟨Nat.le_of_not_lt hc, rfl⟩
    have hv : t.view c = .error (.outOfRange t.classes.size c.index) := by
      rw [view, hdecl]
      rfl
    simp [hv, hc, eq_comm]

/-! ## Inheritance -/

/-- The first class inherits directly from the second. -/
def Extends (t : ClassTable) (c d : ClassId) : Prop := t.superclass c = .ok (some d)

/-- The first class is the second, or inherits from it in any number of steps. -/
abbrev Inherits (t : ClassTable) : ClassId → ClassId → Prop := Relation.ReflTransGen t.Extends

/-- The first class inherits from the second in one step or more. -/
abbrev InheritsProperly (t : ClassTable) : ClassId → ClassId → Prop :=
  Relation.TransGen t.Extends

/-- No class inherits from itself. -/
def Acyclic (t : ClassTable) : Prop := ∀ c, ¬ t.InheritsProperly c c

/-- No class inherits from itself, and every class that is inherited from is declared. -/
structure Rooted (t : ClassTable) : Prop where
  acyclic : t.Acyclic
  closed : ∀ {c d}, t.Extends c d → t.Declared d

theorem superclass_of_view (h : t.view c = .ok v) : t.superclass c = .ok v.decl.superclass? :=
  bind_eq_ok_iff.mpr ⟨v.decl, classDecl_of_view h, rfl⟩

theorem extends_iff_of_view (h : t.view c = .ok v) :
    t.Extends c d ↔ v.decl.superclass? = some d := by
  rw [Extends, superclass_of_view h, Except.ok.injEq]

theorem Extends.declared (h : t.Extends c d) : t.Declared c := by
  rcases bind_eq_ok_iff.mp h with ⟨decl, hdecl, -⟩
  exact declared_iff.mpr ⟨decl, hdecl⟩

theorem Inherits.declared (h : t.Inherits c d) (hd : t.Declared d) : t.Declared c := by
  obtain rfl | ⟨_, hstep, -⟩ := h.cases_head
  · exact hd
  · exact hstep.declared

theorem Rooted.declared_of_inherits (h : t.Rooted) (hc : t.Declared c) (hcd : t.Inherits c d) :
    t.Declared d := by
  cases hcd with
  | refl => exact hc
  | tail _ hstep => exact h.closed hstep

/-! ## The bound on a lineage's length is never reached -/

theorem Acyclic.nodup_of_isChain (h : t.Acyclic) {l : List ClassId} (hl : l.IsChain t.Extends) :
    l.Nodup := by
  have htrans : l.IsChain t.InheritsProperly := hl.imp fun _ _ ↦ Relation.TransGen.single
  refine (List.isChain_iff_pairwise.mp htrans).imp ?_
  intro a b hab heq
  rw [heq] at hab
  exact h b hab

-- a walk of `n` steps either came to an end, or passed `n` declared classes one above the other.
theorem lineageWithin_ended_or_chain (t : ClassTable) (n : Nat) (c : ClassId) :
    (∀ k, t.lineageWithin (n + k) c = t.lineageWithin n c) ∨
      ∃ l : List ClassId, l.length = n ∧ (∀ a ∈ l, t.Declared a) ∧ l.IsChain t.Extends ∧
        ∀ a ∈ l.head?, a = c := by
  induction n generalizing c with
  | zero => exact .inr ⟨[], rfl, by simp, .nil, by simp⟩
  | succ n ih =>
    cases hv : t.view c with
    | error fault =>
      left
      intro k
      simp only [Nat.add_right_comm n 1 k, lineageWithin, hv]
    | ok v =>
      cases hd : v.decl.superclass? with
      | none =>
        left
        intro k
        simp only [Nat.add_right_comm n 1 k, lineageWithin, hv, hd]
      | some d =>
        rcases ih d with hended | ⟨l, hlength, hdeclared, hchain, hhead⟩
        · left
          intro k
          simp only [Nat.add_right_comm n 1 k, lineageWithin, hv, hd, hended k]
        · right
          -- the chain that the class above passed, with this class in front
          have hstep : t.Extends c d := (extends_iff_of_view hv).mpr hd
          refine ⟨c :: l, by rw [List.length_cons, hlength], ?_, ?_, by simp⟩
          · intro a ha
            rcases List.mem_cons.mp ha with rfl | ha
            · exact hstep.declared
            · exact hdeclared a ha
          · rw [List.isChain_cons]
            refine ⟨?_, hchain⟩
            intro a ha
            rw [hhead a ha]
            exact hstep

-- a walk of one step more than there are classes would pass some class twice
theorem Acyclic.lineageWithin_eq (h : t.Acyclic) (k : Nat) (c : ClassId) :
    t.lineageWithin (t.classes.size + 1 + k) c = t.lineage c := by
  rcases lineageWithin_ended_or_chain t (t.classes.size + 1) c with
    hended | ⟨l, hlength, hl, hchain, -⟩
  · exact hended k
  · have hle := Ident.length_le_of_nodup (h.nodup_of_isChain hchain) hl
    omega

/-- A lineage is the class on top of the lineage of the class above. -/
theorem Acyclic.lineage_eq (h : t.Acyclic) (c : ClassId) :
    t.lineage c =
      match t.view c with
      | .error fault => .broken c fault
      | .ok v =>
        match v.decl.superclass? with
        | none => .root v
        | some d => .heir v (t.lineage d) := by
  rw [← h.lineageWithin_eq 1 c]
  rfl

theorem Acyclic.lineage_of_error (h : t.Acyclic) {fault : Fault} (hv : t.view c = .error fault) :
    t.lineage c = .broken c fault := by
  rw [h.lineage_eq c, hv]

theorem Acyclic.lineage_of_root (h : t.Acyclic) (hv : t.view c = .ok v)
    (hd : v.decl.superclass? = none) : t.lineage c = .root v := by
  rw [h.lineage_eq c, hv]
  simp only [hd]

theorem Acyclic.lineage_of_extends (h : t.Acyclic) (hv : t.view c = .ok v)
    (hd : t.Extends c d) : t.lineage c = .heir v (t.lineage d) := by
  rw [h.lineage_eq c, hv]
  simp only [(extends_iff_of_view hv).mp hd]

theorem Acyclic.mem_views_self (h : t.Acyclic) (hv : t.view c = .ok v) :
    v ∈ (t.lineage c).views := by
  cases hd : v.decl.superclass? with
  | none =>
    rw [h.lineage_of_root hv hd]
    exact List.mem_singleton_self v
  | some d =>
    rw [h.lineage_of_extends hv ((extends_iff_of_view hv).mpr hd)]
    exact List.mem_cons_self

-- what holds where a way up ends, and passes from each class to the one below, holds of every
-- class.
theorem Acyclic.induction (h : t.Acyclic) {motive : ClassId → Prop}
    (hbroken : ∀ c fault, t.view c = .error fault → motive c)
    (hroot : ∀ c v, t.view c = .ok v → v.decl.superclass? = none → motive c)
    (hheir : ∀ c v d, t.view c = .ok v → t.Extends c d → motive d → motive c) (c : ClassId) :
    motive c := by
  induction hn : (t.lineage c).views.length using Nat.strong_induction_on generalizing c with
  | h n ih =>
    cases hv : t.view c with
    | error fault => exact hbroken c fault hv
    | ok v =>
      cases hd : v.decl.superclass? with
      | none => exact hroot c v hv hd
      | some d =>
        have hstep := (extends_iff_of_view hv).mpr hd
        -- the way up from the class above is shorter by one class
        have hlonger : (t.lineage d).views.length < n := by
          rw [← hn, h.lineage_of_extends hv hstep]
          exact Nat.lt_succ_self _
        exact hheir c v d hv hstep (ih _ hlonger d rfl)

end ClassTable

/-! ## Ways up that end at the root -/

namespace Lineage

/-- The way up ends at a class that inherits from none. -/
def Complete : Lineage → Prop
  | root _ => True
  | heir _ above => above.Complete
  | broken _ _ => False

instance decidableComplete : (l : Lineage) → Decidable l.Complete
  | root _ => inferInstanceAs (Decidable True)
  | heir _ above => decidableComplete above
  | broken _ _ => inferInstanceAs (Decidable False)

/-- The way up was given up, after more classes than there are. -/
def GivenUp : Lineage → Prop
  | root _ => False
  | heir _ above => above.GivenUp
  | broken _ fault => fault = .cyclicInheritance

instance decidableGivenUp : (l : Lineage) → Decidable l.GivenUp
  | root _ => inferInstanceAs (Decidable False)
  | heir _ above => decidableGivenUp above
  | broken _ fault => inferInstanceAs (Decidable (fault = .cyclicInheritance))

theorem Complete.not_givenUp {l : Lineage} (h : l.Complete) : ¬ l.GivenUp := by
  induction l with
  | root v => exact id
  | heir v above ih => exact ih h
  | broken c fault => exact h.elim

/-- A lineage below which further classes are listed, the lowest first. -/
def prepend (below : List ClassView) (above : Lineage) : Lineage := below.foldr heir above

theorem views_prepend (below : List ClassView) (above : Lineage) :
    (prepend below above).views = below ++ above.views := by
  induction below with
  | nil => rfl
  | cons v below ih => exact congrArg (v :: ·) ih

end Lineage

namespace ClassTable

variable {t : ClassTable} {c d : ClassId} {v : ClassView}

-- on a rooted table the way up from a declared class passes from one declared class to the next
-- until it ends at the root.
theorem Rooted.induction (h : t.Rooted) (ht : t.Consistent) {motive : ClassId → Prop}
    (hroot : ∀ c v, t.view c = .ok v → v.decl.superclass? = none → motive c)
    (hheir : ∀ c v d, t.view c = .ok v → t.Extends c d → motive d → motive c)
    (hc : t.Declared c) : motive c := by
  revert hc
  apply h.acyclic.induction (motive := fun c ↦ t.Declared c → motive c)
  · intro c fault hv hc
    rcases ht.exists_view hc with ⟨v, hv'⟩
    cases hv'.symm.trans hv
  · exact fun c v hv hd _ ↦ hroot c v hv hd
  · exact fun c v d hv hstep ih _ ↦ hheir c v d hv hstep (ih (h.closed hstep))

theorem Rooted.complete (h : t.Rooted) (ht : t.Consistent) (hc : t.Declared c) :
    (t.lineage c).Complete := by
  apply h.induction ht (motive := fun c ↦ (t.lineage c).Complete) _ _ hc
  · intro c v hv hd
    rw [h.acyclic.lineage_of_root hv hd]
    trivial
  · intro c v d hv hstep ih
    rw [h.acyclic.lineage_of_extends hv hstep]
    exact ih

theorem declared_of_complete {n : Nat} (h : (t.lineageWithin n c).Complete) : t.Declared c := by
  cases n with
  | zero => exact h.elim
  | succ n =>
    rw [lineageWithin] at h
    cases hv : t.view c with
    | error fault =>
      rw [hv] at h
      exact h.elim
    | ok v => exact declared_of_view hv

theorem complete_above {n : Nat} (h : (t.lineageWithin (n + 1) c).Complete)
    (hstep : t.Extends c d) : (t.lineageWithin n d).Complete := by
  rw [lineageWithin] at h
  cases hv : t.view c with
  | error fault =>
    rw [hv] at h
    exact h.elim
  | ok v =>
    simp only [hv, (extends_iff_of_view hv).mp hstep] at h
    exact h

-- every step around a cycle uses up one step of the walk and leaves the cycle as it was
theorem Consistent.givenUp_of_cycle (ht : t.Consistent) {n : Nat}
    (hcycle : t.InheritsProperly c c) : (t.lineageWithin n c).GivenUp := by
  induction n generalizing c with
  | zero => rfl
  | succ n ih =>
    obtain ⟨d, hstep, hback⟩ := Relation.TransGen.head'_iff.mp hcycle
    obtain ⟨v, hv⟩ := ht.exists_view hstep.declared
    rw [lineageWithin, hv]
    simp only [(extends_iff_of_view hv).mp hstep]
    exact ih (.tail' hback hstep)

/-- Whether some class inherits from itself shows in the lineages of the declared classes. -/
theorem acyclic_iff (ht : t.Consistent) :
    t.Acyclic ↔ ∀ c, t.Declared c → ¬ (t.lineage c).GivenUp := by
  refine ⟨fun h c _ ↦ ?_, fun h c hcycle ↦ ?_⟩
  · apply h.induction (motive := fun c ↦ ¬ (t.lineage c).GivenUp)
    · intro c fault hv
      rw [h.lineage_of_error hv, (ht.view_eq_error_iff.mp hv).2]
      exact nofun
    · intro c v hv hd
      rw [h.lineage_of_root hv hd]
      exact id
    · intro c v d hv hstep ih
      rw [h.lineage_of_extends hv hstep]
      exact ih
  · obtain ⟨d, hstep, -⟩ := Relation.TransGen.head'_iff.mp hcycle
    exact h c hstep.declared (ht.givenUp_of_cycle hcycle)

/-- Whether a table is rooted shows in the lineages of its declared classes. -/
theorem rooted_iff (ht : t.Consistent) :
    t.Rooted ↔ ∀ c, t.Declared c → (t.lineage c).Complete := by
  refine ⟨fun h c hc ↦ h.complete ht hc, fun h ↦ ⟨?_, ?_⟩⟩
  · exact (acyclic_iff ht).mpr fun c hc ↦ (h c hc).not_givenUp
  · intro c d hstep
    exact declared_of_complete (complete_above (h c hstep.declared) hstep)

section ofDeclarations

variable {ds : List Declaration}

-- on a table that declarations lead to, the lineages can be worked out one class after the other.
theorem acyclic_ofDeclarations (h : ∀ n < (ofDeclarations ds).classes.size,
    ¬ ((ofDeclarations ds).lineage (.ofIndex n)).GivenUp) : (ofDeclarations ds).Acyclic :=
  (acyclic_iff (reached_ofDeclarations ds).consistent).mpr (forall_declared_iff.mpr h)

theorem rooted_ofDeclarations (h : ∀ n < (ofDeclarations ds).classes.size,
    ((ofDeclarations ds).lineage (.ofIndex n)).Complete) : (ofDeclarations ds).Rooted :=
  (rooted_iff (reached_ofDeclarations ds).consistent).mpr (forall_declared_iff.mpr h)

end ofDeclarations

/-- The lineage of a class ends with the lineage of each class that it inherits from. -/
theorem Acyclic.lineage_eq_prepend (h : t.Acyclic) (ht : t.Consistent) {sub sup : ClassId}
    (hinherits : t.Inherits sub sup) :
    ∃ below, t.lineage sub = .prepend below (t.lineage sup) ∧
      ∀ v ∈ below, t.view v.id = .ok v ∧ t.Inherits sub v.id ∧ t.InheritsProperly v.id sup := by
  induction hinherits using Relation.ReflTransGen.head_induction_on with
  | refl => exact ⟨[], rfl, by simp⟩
  | @head a b hstep hrest ih =>
    rcases ih with ⟨below, hlineage, hbelow⟩
    rcases ht.exists_view hstep.declared with ⟨v, hv⟩
    have hid := id_of_view hv
    refine ⟨v :: below, ?_, ?_⟩
    · rw [h.lineage_of_extends hv hstep, hlineage]
      rfl
    · intro w hw
      rcases List.mem_cons.mp hw with rfl | hw
      · rw [hid]
        exact ⟨hv, .refl, .head' hstep hrest⟩
      · rcases hbelow w hw with ⟨hview, hbetween, habove⟩
        exact ⟨hview, .head hstep hbetween, habove⟩

-- a lineage shows the class and every class that it inherits from.
theorem Acyclic.mem_views_iff (h : t.Acyclic) (ht : t.Consistent) :
    v ∈ (t.lineage c).views ↔ t.view v.id = .ok v ∧ t.Inherits c v.id := by
  refine ⟨?_, fun hv ↦ ?_⟩
  · apply h.induction (motive := fun c ↦
      v ∈ (t.lineage c).views → t.view v.id = .ok v ∧ t.Inherits c v.id)
    · intro c fault hw hmem
      rw [h.lineage_of_error hw] at hmem
      cases hmem
    · intro c w hw hd hmem
      rw [h.lineage_of_root hw hd] at hmem
      rw [List.mem_singleton.mp hmem, id_of_view hw]
      exact ⟨hw, .refl⟩
    · intro c w d hw hstep ih hmem
      rw [h.lineage_of_extends hw hstep] at hmem
      obtain rfl | habove := List.mem_cons.mp hmem
      · rw [id_of_view hw]
        exact ⟨hw, .refl⟩
      · obtain ⟨hview, hinherits⟩ := ih habove
        exact ⟨hview, .head hstep hinherits⟩
  · obtain ⟨hview, hinherits⟩ := hv
    obtain ⟨below, hlineage, -⟩ := h.lineage_eq_prepend ht hinherits
    rw [hlineage, Lineage.views_prepend, List.mem_append]
    exact .inr (h.mem_views_self hview)

end ClassTable

/-! ## A small hierarchy -/

namespace Shapes

-- a class may be declared before the class it inherits from
def tile : ClassId := ⟨3⟩
def square : ClassId := ⟨4⟩
def shape : ClassId := ⟨5⟩

def area : MethodDecl := ⟨"area", shape, {}, .method, [], .int⟩

def scale : MethodDecl := ⟨"scale", shape, {}, .method, [.int], .void⟩

def scaleOfSquare : MethodDecl := ⟨"scale", square, {}, .method, [.long], .void⟩

def areaOfTile : MethodDecl := ⟨"area", tile, {}, .method, [], .int⟩

/-- Tiles are squares and squares are shapes. A tile has an area and an identity of its own. -/
def table : ClassTable := .ofDeclarations
  [.newClass "Tile" {} (some (.classType square [.int])) [],
    .newClass "Square" {} (some (.parameter "T" (some (.ofClass shape)))) ["T"],
    .newClass "Shape" {} none [],
    .field shape "id" .int {},
    .field shape "count" .int (.ofList [.static]),
    .field tile "id" .long {},
    .method shape "area" {} [] .int,
    .method shape "scale" {} [.int] .void,
    .method square "scale" {} [.long] .void,
    .method square "area" (.ofList [.privateAccess]) [] .int,
    .constructor tile {} [.int],
    .method tile "area" {} [] .int]

theorem reached : table.Reached := ClassTable.reached_ofDeclarations _

theorem rooted : table.Rooted := ClassTable.rooted_ofDeclarations (by decide +kernel)

theorem tile_inherits_shape : table.Inherits tile shape := by
  have hsquare : table.Extends tile square := rfl
  have hshape : table.Extends square shape := rfl
  exact .head hsquare (.single hshape)

end Shapes

end ObjectAbi
