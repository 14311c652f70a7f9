import ObjectAbi.Proofs.Layout.Positions
import ObjectAbi.Proofs.Layout.Remembered
import ObjectAbi.Proofs.Layout.SlotSignatures

/-!
# Looking up the slot of a method

A slot keeps two of the methods that share it, and a look-up knows a slot by these two: the method
that introduced it and the one that a call through it reaches. So every virtual method of a class
has a slot of its signature there, but is found only if it introduced the slot or if nothing further
down overrides it. A method that overrides another and is itself overridden is found in no class
below.
-/

namespace ObjectAbi

namespace ClassTable

/-- No class declares two virtual methods of one name and the same erased formals. -/
def VirtualsDistinct (t : ClassTable) : Prop :=
  ∀ i m, t.methodDecl i = .ok m → ∀ j n, t.methodDecl j = .ok n → m.isVirtual → n.isVirtual →
    m.container = n.container → m.overrides n → i = j

/-- The method overrides no virtual method of a class strictly above its own. -/
def Introduces (t : ClassTable) (m : MethodDecl) : Prop :=
  ∀ i n, t.methodDecl i = .ok n → n.isVirtual → m.overrides n →
    ¬ t.InheritsProperly m.container n.container

/-- From the given class up to the method's own, exclusively, no virtual method overrides the
method. -/
def Implements (t : ClassTable) (c : ClassId) (m : MethodDecl) : Prop :=
  ∀ i n, t.methodDecl i = .ok n → n.isVirtual → n.overrides m → t.Inherits c n.container →
    ¬ t.InheritsProperly n.container m.container

/-! ## The methods that a slot keeps -/

section slots

variable {t : ClassTable} {c : ClassId} {slots : List Slot} {s : Slot} {m n : MethodEntry}
  (h : t.Acyclic) (ht : t.Consistent)

include h ht

-- of two methods of one signature the lower one is the other just if it is not strictly below.
theorem Acyclic.virtual_id_eq_iff (hdistinct : t.VirtualsDistinct) (hm : m ∈ (t.lineage c).virtuals)
    (hn : n ∈ (t.lineage c).virtuals) (hsame : m.decl.signature = n.decl.signature)
    (hinherits : t.Inherits m.decl.container n.decl.container) :
    m.id = n.id ↔ ¬ t.InheritsProperly m.decl.container n.decl.container := by
  obtain ⟨hlookup, hvirtual, -⟩ := (h.mem_virtuals_iff ht).mp hm
  obtain ⟨hlookup', hvirtual', -⟩ := (h.mem_virtuals_iff ht).mp hn
  refine ⟨fun hid ↦ ?_, fun hnot ↦ ?_⟩
  · rw [Arena.entry_eq_of_id_eq hlookup hlookup' hid]
    exact h n.decl.container
  · obtain hcontainer | hproper := Relation.reflTransGen_iff_eq_or_transGen.mp hinherits
    · exact hdistinct m.id m.decl hlookup n.id n.decl hlookup' hvirtual hvirtual' hcontainer.symm
        (MethodDecl.overrides_iff.mpr hsame)
    · exact absurd hproper hnot

variable (hslots : t.slots c = .ok slots) (hs : s ∈ slots) (hm : m ∈ (t.lineage c).virtuals)

include hslots hs hm

-- a slot of another signature keeps other methods.
theorem Acyclic.signature_of_holds (hholds : s.holds m.id) :
    m.decl.signature = s.signature := by
  have hsame : ∀ {n : MethodEntry}, n ∈ (t.lineage c).virtuals → n.id = m.id → n = m :=
    fun hn hid ↦ Arena.entry_eq_of_id_eq ((h.mem_virtuals_iff ht).mp hn).1
      ((h.mem_virtuals_iff ht).mp hm).1 hid
  have hcollects := Lineage.collects_slots hslots
  obtain hid | hid : s.declared.id = m.id ∨ s.implementation.id = m.id := by
    simpa [Slot.holds] using hholds
  · rw [← hsame (hcollects.declared_mem hs) hid]
    rfl
  · obtain ⟨himplementation, hsignature⟩ := hcollects.implementation_mem hs
    rw [← hsame himplementation hid, hsignature]

variable (hsame : m.decl.signature = s.signature)

include hsame

-- a method that shares a slot lies between the two that the slot keeps.
theorem Acyclic.inherits_of_slot :
    t.Inherits m.decl.container s.declared.decl.container ∧
      t.Inherits s.implementation.decl.container m.decl.container :=
  (Lineage.collects_slots hslots).between (fun _ ↦ .refl) (h.pairwise_virtuals ht c) hs hm hsame

theorem Acyclic.declared_id_eq_iff (hdistinct : t.VirtualsDistinct) :
    s.declared.id = m.id ↔ t.Introduces m.decl := by
  have hdeclared := (Lineage.collects_slots hslots).declared_mem hs
  have habove := (h.inherits_of_slot ht hslots hs hm hsame).1
  rw [eq_comm, h.virtual_id_eq_iff ht hdistinct hm hdeclared hsame habove]
  refine ⟨fun hnot i n hn hvirtual hoverrides hproper ↦ ?_, fun hintroduces ↦ ?_⟩
  · -- a method further up is still no further up than the one that introduced the slot
    have hsame' := MethodDecl.overrides_iff.mp hoverrides
    have hinherits := ((h.mem_virtuals_iff ht).mp hm).2.2
    have hmem : (⟨i, n⟩ : MethodEntry) ∈ (t.lineage c).virtuals :=
      (h.mem_virtuals_iff ht).mpr ⟨hn, hvirtual, hinherits.trans hproper.to_reflTransGen⟩
    have hbetween := (h.inherits_of_slot ht hslots hs hmem (hsame'.symm.trans hsame)).1
    exact hnot (hproper.trans_left hbetween)
  · obtain ⟨hlookup, hvirtual, -⟩ := (h.mem_virtuals_iff ht).mp hdeclared
    exact hintroduces _ _ hlookup hvirtual (MethodDecl.overrides_iff.mpr hsame)

theorem Acyclic.implementation_id_eq_iff (hdistinct : t.VirtualsDistinct) :
    s.implementation.id = m.id ↔ t.Implements c m.decl := by
  obtain ⟨himplementation, hshared⟩ := (Lineage.collects_slots hslots).implementation_mem hs
  have hbelow := (h.inherits_of_slot ht hslots hs hm hsame).2
  have hsignature := hshared.trans hsame.symm
  rw [h.virtual_id_eq_iff ht hdistinct himplementation hm hsignature hbelow]
  refine ⟨fun hnot i n hn hvirtual hoverrides hinherits hproper ↦ ?_, fun himplements ↦ ?_⟩
  · -- a method further down is still no further down than the one that a call reaches
    have hsame' := MethodDecl.overrides_iff.mp hoverrides
    have hmem : (⟨i, n⟩ : MethodEntry) ∈ (t.lineage c).virtuals :=
      (h.mem_virtuals_iff ht).mpr ⟨hn, hvirtual, hinherits⟩
    have hbetween := (h.inherits_of_slot ht hslots hs hmem (hsame'.trans hsame)).2
    exact hnot (hproper.trans_right hbetween)
  · obtain ⟨hlookup, hvirtual, hinherits⟩ := (h.mem_virtuals_iff ht).mp himplementation
    exact himplements _ _ hlookup hvirtual (MethodDecl.overrides_iff.mpr hsignature) hinherits

-- a look-up knows the slot by the two methods that it keeps.
theorem Acyclic.holds_iff (hdistinct : t.VirtualsDistinct) :
    s.holds m.id ↔ t.Introduces m.decl ∨ t.Implements c m.decl := by
  rw [← h.declared_id_eq_iff ht hslots hs hm hsame hdistinct,
    ← h.implementation_id_eq_iff ht hslots hs hm hsame hdistinct]
  simp [Slot.holds]

end slots

-- the slots were introduced by different methods, so they are no more than there are methods.
theorem Acyclic.length_slots_le_size {t : ClassTable} {c : ClassId} {slots : List Slot}
    (h : t.Acyclic) (ht : t.Consistent) (hslots : t.slots c = .ok slots) :
    slots.length ≤ t.methods.size := by
  have hcollects := Lineage.collects_slots hslots
  have hlookup : ∀ s ∈ slots, t.methodDecl s.declared.id = .ok s.declared.decl :=
    fun s hs ↦ ((h.mem_virtuals_iff ht).mp (hcollects.declared_mem hs)).1
  have hnodup : (slots.map (·.declared.id)).Nodup := by
    refine List.Nodup.map_on ?_ hcollects.distinct.of_map
    intro s hs s' hs' hid
    have hdeclared := Arena.entry_eq_of_id_eq (hlookup s hs) (hlookup s' hs') hid
    exact List.inj_on_of_nodup_map hcollects.distinct hs hs'
      (congrArg (·.decl.signature) hdeclared)
  have hle : (slots.map (·.declared)).length ≤ t.methods.size := by
    refine Arena.length_le_of_nodup (by rwa [List.map_map]) fun m hm ↦ ?_
    obtain ⟨s, hs, rfl⟩ := List.mem_map.mp hm
    exact hlookup s hs
  rwa [List.length_map] at hle

theorem Acyclic.length_slots_le {t : ClassTable} {c : ClassId} {slots : List Slot} (h : t.Acyclic)
    (ht : t.Consistent) (hslots : t.slots c = .ok slots) : slots.length ≤ Ident.capacity :=
  (h.length_slots_le_size ht hslots).trans t.methods.size_le

end ClassTable

namespace Layout

/-! ## Looking up -/

variable {t : ClassTable} {c : ClassId} {slots : List Slot} {s : Slot} {m : MethodEntry}

-- the one slot that can be found for a method is that of its signature.
theorem slotIndex?_eq (h : t.Acyclic) (ht : t.Consistent) (hslots : t.slots c = .ok slots)
    (hm : m ∈ (t.lineage c).virtuals) {k : Nat} (hk : slots[k]? = some s)
    (hsame : m.decl.signature = s.signature) :
    slotIndex? slots m.id = if s.holds m.id then some (.ofNat k + firstSlotIndex) else none := by
  have hunique : ∀ j s', slots[j]? = some s' → s'.holds m.id → j = k := by
    intro j s' hj hholds
    have hother := h.signature_of_holds ht hslots (List.mem_of_getElem? hj) hm hholds
    exact ((Lineage.collects_slots hslots).signature_eq_iff hj hk).mp (hother.symm.trans hsame)
  rw [slotIndex?, position32?_of_unique (h.length_slots_le ht hslots) hk hunique]
  by_cases hholds : s.holds m.id
  · rw [if_pos hholds, if_pos hholds]
    rfl
  · rw [if_neg hholds, if_neg hholds]
    rfl

/-- A virtual method that a class declares or inherits shares one slot of the class with all methods
of its signature. A look-up finds it there if it introduced the slot or implements it, and finds
nothing otherwise. -/
theorem virtual_method_located_iff (hreached : t.Reached) (hrooted : t.Rooted)
    (hdistinct : t.VirtualsDistinct) {i : MethodId} {m : MethodDecl} (hm : t.methodDecl i = .ok m)
    (hvirtual : m.isVirtual) (hinherits : t.Inherits c m.container) (before before' : List Query) :
    ∃ (slots : List Slot) (k : Nat) (s : Slot),
      answerAfter t before (.slots c) = .ok (.slots slots) ∧ slots[k]? = some s ∧
      (∀ j s', slots[j]? = some s' → (m.overrides s'.declared.decl ↔ j = k)) ∧
      (t.Introduces m ∨ t.Implements c m →
        answerAfter t before' (.slotIndex c i) =
          .ok (.slotIndex (some (.ofNat k + firstSlotIndex)))) ∧
      (¬ (t.Introduces m ∨ t.Implements c m) →
        answerAfter t before' (.slotIndex c i) = .ok (.slotIndex none)) := by
  have h := hrooted.acyclic
  have ht := hreached.consistent
  have hc : t.Declared c :=
    hinherits.declared (ht.methods.container_lt (Arena.get_eq_ok_iff.mp hm))
  obtain ⟨slots, hslots⟩ := (hrooted.complete ht hc).exists_slots
  have hcollects := Lineage.collects_slots hslots
  have hmem : (⟨i, m⟩ : MethodEntry) ∈ (t.lineage c).virtuals :=
    (h.mem_virtuals_iff ht).mpr ⟨hm, hvirtual, hinherits⟩
  obtain ⟨k, s, hk, hsame⟩ := hcollects.exists_getElem? hmem
  have hholds : s.holds i ↔ t.Introduces m ∨ t.Implements c m :=
    h.holds_iff ht hslots (List.mem_of_getElem? hk) hmem hsame hdistinct
  have hanswer : answerAfter t before' (.slotIndex c i) =
      .ok (.slotIndex (if s.holds i then some (.ofNat k + firstSlotIndex) else none)) := by
    rw [answerAfter_eq_answer h, ← slotIndex?_eq h ht hslots hmem hk hsame]
    exact bind_eq_ok_iff.mpr ⟨slots, hslots, rfl⟩
  refine ⟨slots, k, s, ?_, hk, ?_, fun hfound ↦ ?_, fun hmissed ↦ ?_⟩
  · rw [answerAfter_eq_answer h]
    exact bind_eq_ok_iff.mpr ⟨slots, hslots, rfl⟩
  · intro j s' hj
    have hsame' : m.signature = s.signature := hsame
    rw [MethodDecl.overrides_iff, hsame', ← hcollects.signature_eq_iff hj hk, eq_comm]
    rfl
  · rw [hanswer, if_pos (hholds.mpr hfound)]
  · rw [hanswer, if_neg (hholds.not.mpr hmissed)]

/-! ## A method that is overridden twice -/

namespace Overridden

def base : ClassId := ⟨3⟩
def middle : ClassId := ⟨4⟩
def leaf : ClassId := ⟨5⟩

def run (c : ClassId) : MethodDecl := ⟨"run", c, {}, .method, [], .void⟩

/-- Three classes, each of which inherits from the one before and declares the same method. -/
def table : ClassTable := .ofDeclarations
  [.newClass "Base" {} none [],
    .newClass "Middle" {} (some (.ofClass base)) [],
    .newClass "Leaf" {} (some (.ofClass middle)) [],
    .method base "run" {} [] .void,
    .method middle "run" {} [] .void,
    .method leaf "run" {} [] .void]

theorem rooted : table.Rooted := ClassTable.rooted_ofDeclarations (by decide +kernel)

theorem virtualsDistinct : table.VirtualsDistinct := by
  -- each of the three classes declares just one method
  have hindex : ∀ i m, table.methodDecl i = .ok m → m.container.index = i.index + 3 := by
    simp only [ClassTable.forall_methodDecl_iff]
    decide +kernel
  intro i m hm j n hn _ _ hcontainer _
  have hi := hindex i m hm
  have hj := hindex j n hn
  rw [hcontainer] at hi
  exact Ident.index_inj.mp (by omega)

theorem leaf_extends_middle : table.Extends leaf middle := rfl

theorem middle_extends_base : table.Extends middle base := rfl

end Overridden

open Overridden in
-- the slot that the method shares is there, and only the look-up misses it
theorem middle_override_not_located_in_leaf :
    (∃ (slots : List Slot) (s : Slot),
      answerAfter table [] (.slots leaf) = .ok (.slots slots) ∧ s ∈ slots ∧
      (run middle).overrides s.declared.decl) ∧
    answerAfter table [] (.slotIndex leaf ⟨1⟩) = .ok (.slotIndex none) := by
  have hintroduces : ¬ table.Introduces (run middle) := fun h ↦
    h ⟨0⟩ (run base) rfl rfl (by decide) (.single middle_extends_base)
  have himplements : ¬ table.Implements leaf (run middle) := fun h ↦
    h ⟨2⟩ (run leaf) rfl rfl (by decide) .refl (.single leaf_extends_middle)
  obtain ⟨slots, k, s, hslots, hk, hshares, -, hmissed⟩ :=
    virtual_method_located_iff (ClassTable.reached_ofDeclarations _) rooted virtualsDistinct
      (show table.methodDecl ⟨1⟩ = .ok (run middle) from rfl) (by decide)
      (.single leaf_extends_middle) [] []
  exact ⟨⟨slots, s, hslots, List.mem_of_getElem? hk, (hshares k s hk).mpr rfl⟩,
    hmissed (not_or.mpr ⟨hintroduces, himplements⟩)⟩

open Overridden in
theorem middle_override_refutes_located :
    ¬ ∀ (t : ClassTable) (c : ClassId) (i : MethodId) (m : MethodDecl), t.Reached → t.Rooted →
      t.VirtualsDistinct → t.methodDecl i = .ok m → m.isVirtual → t.Inherits c m.container →
      ∃ p, answerAfter t [] (.slotIndex c i) = .ok (.slotIndex (some p)) := by
  intro hlocated
  obtain ⟨p, hp⟩ := hlocated table leaf ⟨1⟩ (run middle) (ClassTable.reached_ofDeclarations _)
    rooted virtualsDistinct rfl (by decide) (.single leaf_extends_middle)
  have hmissed : answerAfter table [] (.slotIndex leaf ⟨1⟩) = .ok (.slotIndex none) := by
    decide +kernel
  cases hp.symm.trans hmissed

end Layout

end ObjectAbi
