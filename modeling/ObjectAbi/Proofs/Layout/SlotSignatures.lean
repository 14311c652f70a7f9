import ObjectAbi.Proofs.ClassTable.Walks
import ObjectAbi.Proofs.Layout.Inheritance

/-!
# Slots and signatures

Methods of one name and the same erased formals have one signature, and one slot. Once the virtual
methods of a class and of all classes above have been placed, from the root down, each signature
among them has just one slot: the first method of the signature introduced it, and the last one is
what a call through it reaches.
-/

namespace ObjectAbi

/-! ## Signatures -/

/-- What a method has in common with the methods that it overrides. -/
def MethodDecl.signature (m : MethodDecl) : String × List Ty := (m.name, m.erasedFormals)

theorem MethodDecl.overrides_iff {m base : MethodDecl} :
    m.overrides base ↔ m.signature = base.signature := by
  simp [overrides, signature]

/-- The methods of one signature, in their order. -/
def withSignature (signature : String × List Ty) (methods : List MethodEntry) :
    List MethodEntry :=
  methods.filter fun m ↦ m.decl.signature = signature

theorem mem_withSignature_iff {signature : String × List Ty} {methods : List MethodEntry}
    {m : MethodEntry} :
    m ∈ withSignature signature methods ↔ m ∈ methods ∧ m.decl.signature = signature := by
  simp [withSignature]

theorem withSignature_append_singleton (signature : String × List Ty) (methods : List MethodEntry)
    (m : MethodEntry) :
    withSignature signature (methods ++ [m]) =
      if m.decl.signature = signature then withSignature signature methods ++ [m]
      else withSignature signature methods := by
  by_cases h : m.decl.signature = signature <;> simp [withSignature, h]

namespace Slot

/-- The signature that the slot was introduced for. -/
def signature (s : Slot) : String × List Ty := s.declared.decl.signature

variable {slots : List Slot} {methods : List MethodEntry} {m : MethodEntry} {s : Slot}

/-! ## Placing one method -/

theorem place_cons (s : Slot) (slots : List Slot) (m : MethodEntry) :
    place (s :: slots) m =
      if s.signature = m.decl.signature then { s with implementation := m } :: slots
      else s :: place slots m := by
  have hoverrides : m.decl.overrides s.declared.decl ↔ s.signature = m.decl.signature := by
    rw [MethodDecl.overrides_iff, eq_comm]
    rfl
  rw [place]
  simp only [hoverrides]

-- a signature that has no slot yet gets the last one.
theorem map_signature_place (slots : List Slot) (m : MethodEntry) :
    (place slots m).map signature =
      if m.decl.signature ∈ slots.map signature then slots.map signature
      else slots.map signature ++ [m.decl.signature] := by
  induction slots with
  | nil => rfl
  | cons s slots ih =>
    rw [place_cons]
    by_cases hs : s.signature = m.decl.signature
    · rw [if_pos hs, if_pos (List.mem_map.mpr ⟨s, List.mem_cons_self, hs⟩)]
      rfl
    · rw [if_neg hs, List.map_cons, ih]
      by_cases hmem : m.decl.signature ∈ slots.map signature
      · have hmem' : m.decl.signature ∈ (s :: slots).map signature :=
          List.mem_cons_of_mem s.signature hmem
        rw [if_pos hmem, if_pos hmem']
        rfl
      · have hnot : m.decl.signature ∉ (s :: slots).map signature := by
          rw [List.map_cons, List.mem_cons]
          exact fun h ↦ h.elim (fun heq ↦ hs heq.symm) hmem
        rw [if_neg hmem, if_neg hnot]
        rfl

theorem mem_map_signature_place {sig : String × List Ty} :
    sig ∈ (place slots m).map signature ↔
      sig ∈ slots.map signature ∨ sig = m.decl.signature := by
  rw [map_signature_place]
  by_cases hmem : m.decl.signature ∈ slots.map signature
  · rw [if_pos hmem]
    exact ⟨.inl, fun h ↦ h.elim id fun heq ↦ heq ▸ hmem⟩
  · rw [if_neg hmem, List.mem_append, List.mem_singleton]

theorem nodup_map_signature_place (hdistinct : (slots.map signature).Nodup) :
    ((place slots m).map signature).Nodup := by
  rw [map_signature_place]
  by_cases hmem : m.decl.signature ∈ slots.map signature
  · rwa [if_pos hmem]
  · rw [if_neg hmem]
    exact hdistinct.append (List.nodup_singleton _) (List.disjoint_singleton.mpr hmem)

-- a slot afterwards is an old one of another signature, or the one that the method has now, which
-- it took over or introduced.
theorem mem_place (hdistinct : (slots.map signature).Nodup) (hs : s ∈ place slots m) :
    s ∈ slots ∧ m.decl.signature ≠ s.signature ∨
    (s.implementation = m ∧ m.decl.signature = s.signature) ∧
      ((∃ old ∈ slots, old.declared = s.declared) ∨
        s.declared = m ∧ m.decl.signature ∉ slots.map signature) := by
  induction slots with
  | nil =>
    rw [List.mem_singleton.mp hs]
    exact .inr ⟨⟨rfl, rfl⟩, .inr ⟨rfl, List.not_mem_nil⟩⟩
  | cons first slots ih =>
    rw [List.map_cons, List.nodup_cons] at hdistinct
    rw [place_cons] at hs
    by_cases hfirst : first.signature = m.decl.signature
    · rw [if_pos hfirst] at hs
      obtain rfl | hs := List.mem_cons.mp hs
      · exact .inr ⟨⟨rfl, hfirst.symm⟩, .inl ⟨first, List.mem_cons_self, rfl⟩⟩
      · -- the signature of the first slot is not met again
        have hother : m.decl.signature ≠ s.signature := by
          intro heq
          exact hdistinct.1 (List.mem_map.mpr ⟨s, hs, heq.symm.trans hfirst.symm⟩)
        exact .inl ⟨List.mem_cons_of_mem _ hs, hother⟩
    · rw [if_neg hfirst] at hs
      obtain rfl | hs := List.mem_cons.mp hs
      · exact .inl ⟨List.mem_cons_self, Ne.symm hfirst⟩
      · obtain ⟨hold, hother⟩ | ⟨hmine, ⟨old, hold, hdeclared⟩ | ⟨hdeclared, hnew⟩⟩ :=
          ih hdistinct.2 hs
        · exact .inl ⟨List.mem_cons_of_mem _ hold, hother⟩
        · exact .inr ⟨hmine, .inl ⟨old, List.mem_cons_of_mem _ hold, hdeclared⟩⟩
        · have hnone : m.decl.signature ∉ (first :: slots).map signature := by
            rw [List.map_cons, List.mem_cons]
            exact fun h ↦ h.elim (fun heq ↦ hfirst heq.symm) hnew
          exact .inr ⟨hmine, .inr ⟨hdeclared, hnone⟩⟩

/-! ## Placing many methods -/

/-- The slots are those of the given methods: one for each signature, from its first method to its
last. -/
structure Collects (methods : List MethodEntry) (slots : List Slot) : Prop where
  distinct : (slots.map signature).Nodup
  covers : ∀ m ∈ methods, m.decl.signature ∈ slots.map signature
  first : ∀ s ∈ slots, (withSignature s.signature methods).head? = some s.declared
  last : ∀ s ∈ slots, (withSignature s.signature methods).getLast? = some s.implementation

namespace Collects

theorem nil : Collects [] [] :=
  ⟨List.nodup_nil, by simp, by simp, by simp⟩

theorem withSignature_eq_nil (h : Collects methods slots) {sig : String × List Ty}
    (hsig : sig ∉ slots.map signature) : withSignature sig methods = [] := by
  rw [List.eq_nil_iff_forall_not_mem]
  intro n hn
  obtain ⟨hplaced, hsame⟩ := mem_withSignature_iff.mp hn
  exact hsig (hsame ▸ h.covers n hplaced)

-- a slot afterwards goes from the first method of its signature to the last, the new one included.
theorem ends_of_mem_place (h : Collects methods slots) (hs : s ∈ Slot.place slots m) :
    (withSignature s.signature (methods ++ [m])).head? = some s.declared ∧
      (withSignature s.signature (methods ++ [m])).getLast? = some s.implementation := by
  rw [withSignature_append_singleton]
  obtain ⟨hold, hother⟩ | ⟨⟨hmine, hsame⟩, hdeclared⟩ := mem_place h.distinct hs
  · rw [if_neg hother]
    exact ⟨h.first s hold, h.last s hold⟩
  · rw [if_pos hsame, List.getLast?_concat, hmine, List.head?_append]
    refine ⟨?_, rfl⟩
    obtain ⟨old, hold, hdeclared⟩ | ⟨hdeclared, hnew⟩ := hdeclared
    · have hfirst := h.first old hold
      rw [hdeclared, show old.signature = s.signature from congrArg (·.decl.signature) hdeclared]
        at hfirst
      rw [hfirst]
      rfl
    · rw [h.withSignature_eq_nil (hsame ▸ hnew), hdeclared]
      rfl

theorem place (h : Collects methods slots) (m : MethodEntry) :
    Collects (methods ++ [m]) (place slots m) := by
  refine ⟨nodup_map_signature_place h.distinct, fun n hn ↦ ?_,
    fun s hs ↦ (h.ends_of_mem_place hs).1, fun s hs ↦ (h.ends_of_mem_place hs).2⟩
  rw [mem_map_signature_place]
  obtain hplaced | hnew := List.mem_append.mp hn
  · exact .inl (h.covers n hplaced)
  · exact .inr (congrArg (·.decl.signature) (List.mem_singleton.mp hnew))

theorem foldl_place (h : Collects methods slots) (added : List MethodEntry) :
    Collects (methods ++ added) (added.foldl Slot.place slots) := by
  induction added generalizing methods slots with
  | nil => simpa using h
  | cons m added ih =>
    rw [List.append_cons]
    exact ih (h.place m)

-- where the methods are in some order, each lies between the two that its slot keeps.
theorem between (h : Collects methods slots) {R : MethodEntry → MethodEntry → Prop}
    (hrefl : ∀ n, R n n) (hordered : methods.Pairwise R) (hs : s ∈ slots) (hm : m ∈ methods)
    (hsame : m.decl.signature = s.signature) : R s.declared m ∧ R m s.implementation := by
  have : Std.Refl R := ⟨hrefl⟩
  have hshared : (withSignature s.signature methods).Pairwise R := hordered.filter _
  have hmem : m ∈ withSignature s.signature methods := mem_withSignature_iff.mpr ⟨hm, hsame⟩
  have hne : withSignature s.signature methods ≠ [] := List.ne_nil_of_mem hmem
  have hfirst := h.first s hs
  have hlast := h.last s hs
  rw [List.head?_eq_some_head hne, Option.some.injEq] at hfirst
  rw [List.getLast?_eq_some_getLast hne, Option.some.injEq] at hlast
  exact ⟨hfirst ▸ hshared.rel_head hmem, hlast ▸ hshared.rel_getLast hmem⟩

theorem exists_getElem? (h : Collects methods slots) (hm : m ∈ methods) :
    ∃ (k : Nat) (s : Slot), slots[k]? = some s ∧ m.decl.signature = s.signature := by
  obtain ⟨s, hs, hsame⟩ := List.mem_map.mp (h.covers m hm)
  obtain ⟨k, hk⟩ := List.mem_iff_getElem?.mp hs
  exact ⟨k, s, hk, hsame.symm⟩

-- different slots have different signatures.
theorem signature_eq_iff (h : Collects methods slots) {i j : Nat} {s' : Slot}
    (hi : slots[i]? = some s) (hj : slots[j]? = some s') : s.signature = s'.signature ↔ i = j := by
  have hlt : i < (slots.map signature).length := by
    rw [List.length_map]
    exact (List.getElem?_eq_some_iff.mp hi).1
  rw [← List.getElem?_inj hlt h.distinct, List.getElem?_map, List.getElem?_map, hi, hj]
  simp

theorem declared_mem (h : Collects methods slots) (hs : s ∈ slots) : s.declared ∈ methods :=
  (mem_withSignature_iff.mp (List.mem_of_head? (h.first s hs))).1

theorem implementation_mem (h : Collects methods slots) (hs : s ∈ slots) :
    s.implementation ∈ methods ∧ s.implementation.decl.signature = s.signature :=
  mem_withSignature_iff.mp (List.mem_of_getLast? (h.last s hs))

end Collects

end Slot

/-! ## The virtual methods of a lineage -/

/-- The virtual methods of the classes of a lineage, from the root down and in the order of
declaration. -/
def Lineage.virtuals (l : Lineage) : List MethodEntry := l.views.reverse.flatMap (·.virtuals)

theorem Lineage.virtuals_heir (v : ClassView) (above : Lineage) :
    (heir v above).virtuals = above.virtuals ++ v.virtuals := by
  simp [virtuals, views]

theorem Lineage.virtuals_root (v : ClassView) : (root v).virtuals = v.virtuals := by
  simp [virtuals, views]

-- the slots of a class are those of all virtual methods of its lineage.
theorem Lineage.collects_slots {l : Lineage} {slots : List Slot} (h : l.slots = .ok slots) :
    Slot.Collects l.virtuals slots := by
  induction l generalizing slots with
  | root v =>
    cases h
    rw [virtuals_root]
    exact Slot.Collects.nil.foldl_place v.virtuals
  | heir v above ih =>
    obtain ⟨inherited, hinherited, h⟩ := bind_eq_ok_iff.mp h
    cases h
    rw [virtuals_heir]
    exact (ih hinherited).foldl_place v.virtuals
  | broken c fault => cases h

namespace ClassTable

variable {t : ClassTable} {c : ClassId} {m : MethodEntry}

theorem Consistent.mem_virtuals_of_view_iff {v : ClassView} (ht : t.Consistent)
    (hv : t.view c = .ok v) :
    m ∈ v.virtuals ↔
      (t.methodDecl m.id = .ok m.decl ∧ m.decl.isVirtual) ∧ m.decl.container = c := by
  rw [ClassView.virtuals, List.mem_filter, ht.mem_methods_of_view_iff hv, and_right_comm]

-- a lineage shows just the virtual methods of the class and of the classes it inherits from.
theorem Acyclic.mem_virtuals_iff (h : t.Acyclic) (ht : t.Consistent) :
    m ∈ (t.lineage c).virtuals ↔
      t.methodDecl m.id = .ok m.decl ∧ m.decl.isVirtual ∧ t.Inherits c m.decl.container := by
  rw [← and_assoc]
  exact h.mem_flatMap_views_iff ht (fun hv _ ↦ ht.mem_virtuals_of_view_iff hv) fun m hm ↦
    ht.methods.container_lt (Arena.get_eq_ok_iff.mp hm.1)

-- further on in the list means further down in the hierarchy.
theorem Acyclic.pairwise_virtuals (h : t.Acyclic) (ht : t.Consistent) (c : ClassId) :
    (t.lineage c).virtuals.Pairwise fun m n ↦ t.Inherits n.decl.container m.decl.container := by
  refine h.pairwise_flatMap_views ht (fun hv _ ↦ ht.mem_virtuals_of_view_iff hv) ?_
    fun m n ↦ Relation.TransGen.to_reflTransGen
  intro c v hv
  apply List.pairwise_of_forall_mem_list
  intro m hm n hn
  rw [((ht.mem_virtuals_of_view_iff hv).mp hm).2, ((ht.mem_virtuals_of_view_iff hv).mp hn).2]

end ClassTable

end ObjectAbi
