import ObjectAbi.Proofs.Layout.Remembered

/-!
# Slots are stable

A call that was compiled against a class goes through a slot of that class, on objects of every
class below. On the way down the hierarchy slots are only added at the end. A slot keeps the method
that introduced it, and what a call through it reaches changes only to a method that overrides that
one and is declared further down.
-/

namespace ObjectAbi

/-! ## How slots develop -/

namespace Slot

/-- The second slot is the first one, or the first one taken over by one of the given methods. -/
def TakenOver (methods : MethodEntry → Prop) (s s' : Slot) : Prop :=
  s'.declared = s.declared ∧
    (s'.implementation = s.implementation ∨
      methods s'.implementation ∧ s'.implementation.decl.overrides s.declared.decl)

/-- The second list starts with the slots of the first, some of which were taken over. -/
inductive Grown (methods : MethodEntry → Prop) : List Slot → List Slot → Prop
  | nil (added : List Slot) : Grown methods [] added
  | cons {s s' : Slot} {old new : List Slot} : TakenOver methods s s' → Grown methods old new →
      Grown methods (s :: old) (s' :: new)

variable {methods more : MethodEntry → Prop} {s s' s'' : Slot} {slots old new newer : List Slot}

theorem TakenOver.refl : TakenOver methods s s := ⟨rfl, .inl rfl⟩

theorem TakenOver.trans (h : TakenOver methods s s') (h' : TakenOver methods s' s'') :
    TakenOver methods s s'' := by
  refine ⟨h'.1.trans h.1, ?_⟩
  rcases h'.2 with heq | hover
  · rw [heq]
    exact h.2
  · rw [h.1] at hover
    exact .inr hover

namespace Grown

theorem refl : Grown methods slots slots := by
  induction slots with
  | nil => exact .nil []
  | cons s slots ih => exact .cons .refl ih

theorem trans (h : Grown methods old new) (h' : Grown methods new newer) :
    Grown methods old newer := by
  induction h generalizing newer with
  | nil added => exact .nil newer
  | cons hs hrest ih =>
    cases h' with
    | cons hs' hrest' => exact .cons (hs.trans hs') (ih hrest')

theorem length_le (h : Grown methods old new) : old.length ≤ new.length := by
  induction h with
  | nil added => exact Nat.zero_le _
  | cons hs hrest ih => exact Nat.succ_le_succ ih

theorem takenOver_getElem? (h : Grown methods old new) {i : Nat} (hi : old[i]? = some s) :
    ∃ s', new[i]? = some s' ∧ TakenOver methods s s' := by
  induction h generalizing i with
  | nil added => simp at hi
  | @cons s₀ s₀' old new hs hrest ih =>
    cases i with
    | zero =>
      rw [List.getElem?_cons_zero, Option.some.injEq] at hi
      subst hi
      exact ⟨s₀', rfl, hs⟩
    | succ i => exact ih hi

-- making room for a method takes over one slot or adds one.
theorem place {m : MethodEntry} (hm : methods m) : Grown methods slots (place slots m) := by
  induction slots with
  | nil => exact .nil _
  | cons s slots ih =>
    unfold Slot.place
    split
    · rename_i hover
      exact .cons ⟨rfl, .inr ⟨hm, hover⟩⟩ .refl
    · exact .cons .refl ih

end Grown

end Slot

namespace ClassView

variable {methods : MethodEntry → Prop} {inherited : List Slot}

-- the slots of a class are those of the class above, with the class's own virtual methods placed.
theorem grown_slotsOver {v : ClassView} (hv : ∀ m ∈ v.virtuals, methods m) :
    Slot.Grown methods inherited (v.slotsOver inherited) := by
  unfold slotsOver
  -- the invariant of the loop: what is there so far has grown from the inherited slots
  revert hv
  generalize v.virtuals = placed
  intro hplaced
  induction placed generalizing inherited with
  | nil => exact .refl
  | cons m placed ih =>
    have hfirst : Slot.Grown methods inherited (Slot.place inherited m) :=
      .place (hplaced m List.mem_cons_self)
    exact hfirst.trans (ih fun n hn ↦ hplaced n (List.mem_cons_of_mem m hn))

theorem grown_foldr_slotsOver {below : List ClassView}
    (hbelow : ∀ v ∈ below, ∀ m ∈ v.virtuals, methods m) :
    Slot.Grown methods inherited (below.foldr slotsOver inherited) := by
  induction below with
  | nil => exact .refl
  | cons v below ih =>
    have hrest := ih fun w hw ↦ hbelow w (List.mem_cons_of_mem v hw)
    exact hrest.trans (grown_slotsOver (hbelow v List.mem_cons_self))

end ClassView

/-! ## Slots of a class below -/

namespace ClassTable

/-- A virtual method of a class that is on the way up from the first class and strictly below the
second. -/
def VirtualBetween (t : ClassTable) (sub sup : ClassId) (m : MethodEntry) : Prop :=
  ∃ c, t.Inherits sub c ∧ t.InheritsProperly c sup ∧ t.Declares c m ∧ m.decl.isVirtual

variable {t : ClassTable} {sub sup : ClassId}

theorem Rooted.slots_grown (h : t.Rooted) (ht : t.Consistent) (hsub : t.Declared sub)
    (hinherits : t.Inherits sub sup) :
    ∃ inherited slots, t.slots sup = .ok inherited ∧ t.slots sub = .ok slots ∧
      Slot.Grown (t.VirtualBetween sub sup) inherited slots := by
  have hsup := h.declared_of_inherits hsub hinherits
  rcases (h.complete ht hsup).exists_slots with ⟨inherited, hinherited⟩
  rcases h.acyclic.lineage_eq_prepend ht hinherits with ⟨below, hlineage, hbelow⟩
  refine ⟨inherited, below.foldr ClassView.slotsOver inherited, hinherited, ?_, ?_⟩
  · rw [slots, hlineage, Lineage.slots_prepend, hinherited]
    rfl
  · apply ClassView.grown_foldr_slotsOver
    intro v hv m hm
    rcases hbelow v hv with ⟨hview, hbetween, habove⟩
    rcases List.mem_filter.mp hm with ⟨hmember, hvirtual⟩
    exact ⟨v.id, hbetween, habove, ht.declares_of_mem_view hview hmember, hvirtual⟩

end ClassTable

namespace Layout

variable {t : ClassTable} {sub sup : ClassId}

/-- Every slot of a class is found at the same position in each class below, introduced by the same
method. A call through it reaches what it reached before, or a virtual method of the same name and
the same erased formals that a class strictly further down declares. -/
theorem inherited_slots_keep_positions (hreached : t.Reached) (hrooted : t.Rooted)
    (hsub : t.Declared sub) (hinherits : t.Inherits sub sup) (before before' : List Query) :
    ∃ inherited slots, answerAfter t before (.slots sup) = .ok (.slots inherited) ∧
      answerAfter t before' (.slots sub) = .ok (.slots slots) ∧
      inherited.length ≤ slots.length ∧
      ∀ (i : Nat) (s : Slot), inherited[i]? = some s →
        ∃ s' : Slot, slots[i]? = some s' ∧ s'.declared = s.declared ∧
          (s'.implementation = s.implementation ∨
            ∃ c, t.Inherits sub c ∧ t.InheritsProperly c sup ∧ t.Declares c s'.implementation ∧
              s'.implementation.decl.isVirtual ∧
              s'.implementation.decl.name = s.declared.decl.name ∧
              s'.implementation.decl.erasedFormals = s.declared.decl.erasedFormals) := by
  rcases hrooted.slots_grown hreached.consistent hsub hinherits with
    ⟨inherited, slots, hsup, hsub, hgrown⟩
  simp only [answerAfter_eq_answer hrooted.acyclic]
  refine ⟨inherited, slots, bind_eq_ok_iff.mpr ⟨inherited, hsup, rfl⟩,
    bind_eq_ok_iff.mpr ⟨slots, hsub, rfl⟩, hgrown.length_le, ?_⟩
  intro i s hi
  rcases hgrown.takenOver_getElem? hi with ⟨s', hi', hdeclared, himplementation⟩
  refine ⟨s', hi', hdeclared, ?_⟩
  rcases himplementation with hsame | ⟨⟨c, hbetween, habove, hdeclares, hvirtual⟩, hoverrides⟩
  · exact .inl hsame
  · simp only [MethodDecl.overrides, Bool.and_eq_true, decide_eq_true_eq] at hoverrides
    exact .inr ⟨c, hbetween, habove, hdeclares, hvirtual, hoverrides.1, hoverrides.2⟩

-- a tile takes over the first slot of a shape and keeps the second
theorem tile_takes_over_slot_of_shape :
    ∃ inherited slots : List Slot,
      answerAfter Shapes.table [] (.slots Shapes.shape) = .ok (.slots inherited) ∧
      answerAfter Shapes.table [.slots Shapes.shape] (.slots Shapes.tile) = .ok (.slots slots) ∧
      ∃ s s' : Slot, inherited[0]? = some s ∧ slots[0]? = some s' ∧ s'.declared = s.declared ∧
        s'.implementation ≠ s.implementation := by
  have hshape : answerAfter Shapes.table [] (.slots Shapes.shape) =
      .ok (.slots [⟨⟨⟨0⟩, Shapes.area⟩, ⟨⟨0⟩, Shapes.area⟩⟩,
        ⟨⟨⟨1⟩, Shapes.scale⟩, ⟨⟨1⟩, Shapes.scale⟩⟩]) := by
    decide +kernel
  have htile : answerAfter Shapes.table [.slots Shapes.shape] (.slots Shapes.tile) =
      .ok (.slots [⟨⟨⟨0⟩, Shapes.area⟩, ⟨⟨5⟩, Shapes.areaOfTile⟩⟩,
        ⟨⟨⟨1⟩, Shapes.scale⟩, ⟨⟨1⟩, Shapes.scale⟩⟩,
        ⟨⟨⟨2⟩, Shapes.scaleOfSquare⟩, ⟨⟨2⟩, Shapes.scaleOfSquare⟩⟩]) := by
    decide +kernel
  rcases inherited_slots_keep_positions Shapes.reached Shapes.rooted (by decide)
    Shapes.tile_inherits_shape [] [.slots Shapes.shape] with
    ⟨inherited, slots, hinherited, hslots, -, hkeep⟩
  refine ⟨inherited, slots, hinherited, hslots, ?_⟩
  cases hinherited.symm.trans hshape
  cases hslots.symm.trans htile
  rcases hkeep 0 _ rfl with ⟨s', hs', hdeclared, -⟩
  refine ⟨_, s', rfl, hs', hdeclared, ?_⟩
  cases hs'
  decide

end Layout

end ObjectAbi
