import ObjectAbi.Proofs.Layout.Positions
import ObjectAbi.Proofs.Layout.Remembered

/-!
# Field positions are stable

Code that was compiled against a class reads the fields of every object of the class at the
positions that they have there, also when the object belongs to a class below. The lists of the
class below start with those of the class, so each position found in the one is found in the other.
-/

namespace ObjectAbi

/-! ## Answers with a position -/

namespace Layout

theorem fieldIndexIn_eq_fieldIndex_iff {t : ClassTable} {fields : List FieldEntry} {c : ClassId}
    {f : FieldId} {i : UInt32} :
    fieldIndexIn t fields c f = .ok (.fieldIndex i) ↔ fieldIndex? fields f = some i := by
  unfold fieldIndexIn
  cases fieldIndex? fields f with
  | some j => simp [pure, Except.pure]
  | none =>
    refine ⟨fun h ↦ ?_, fun h ↦ by cases h⟩
    -- neither look-up for the error leads to a position
    rcases bind_eq_ok_iff.mp h with ⟨field, -, h⟩
    rcases bind_eq_ok_iff.mp h with ⟨container, -, h⟩
    cases h

theorem answer_fieldIndex_iff {t : ClassTable} {c : ClassId} {f : FieldId} {i : UInt32} :
    (Query.fieldIndex c f).answer t = .ok (.fieldIndex i) ↔
      ∃ fields, t.fieldsOf .perObject c = .ok fields ∧ fieldIndex? fields f = some i := by
  change (t.fieldsOf .perObject c >>= fun fields ↦ fieldIndexIn t fields c f) = _ ↔ _
  rw [bind_eq_ok_iff]
  simp only [fieldIndexIn_eq_fieldIndex_iff]

end Layout

/-! ## Lists of a class below -/

namespace ClassTable

variable {t : ClassTable} {sub sup : ClassId}

-- the fields of a class come first among those of every class that inherits from it.
theorem Rooted.fieldsOf_isPrefix (h : t.Rooted) (ht : t.Consistent) (hsub : t.Declared sub)
    (hinherits : t.Inherits sub sup) (kind : FieldKind) :
    ∃ inherited fields, t.fieldsOf kind sup = .ok inherited ∧ t.fieldsOf kind sub = .ok fields ∧
      inherited <+: fields := by
  have hsup := h.declared_of_inherits hsub hinherits
  rcases (h.complete ht hsup).exists_fields kind with ⟨inherited, hinherited⟩
  rcases h.acyclic.lineage_eq_prepend ht hinherits with ⟨below, hlineage, -⟩
  refine ⟨inherited, inherited ++ below.reverse.flatMap (·.fieldsOf kind), hinherited, ?_,
    List.prefix_append _ _⟩
  rw [fieldsOf, hlineage, Lineage.fields_prepend, hinherited]
  rfl

end ClassTable

namespace Layout

variable {t : ClassTable} {sub sup : ClassId}

/-- Field lists of both kinds grow only at the end on the way down the hierarchy, so a field keeps
its position in every class that inherits it, whatever the layouts were asked before. -/
theorem inherited_fields_keep_positions (hreached : t.Reached) (hrooted : t.Rooted)
    (hsub : t.Declared sub) (hinherits : t.Inherits sub sup) (before before' : List Query) :
    (∀ kind, ∃ inherited fields,
      answerAfter t before (.fields kind sup) = .ok (.fields inherited) ∧
      answerAfter t before' (.fields kind sub) = .ok (.fields fields) ∧ inherited <+: fields) ∧
    ∀ f i, answerAfter t before (.fieldIndex sup f) = .ok (.fieldIndex i) →
      answerAfter t before' (.fieldIndex sub f) = .ok (.fieldIndex i) := by
  have hlists := hrooted.fieldsOf_isPrefix hreached.consistent hsub hinherits
  simp only [answerAfter_eq_answer hrooted.acyclic]
  refine ⟨?_, ?_⟩
  · intro kind
    rcases hlists kind with ⟨inherited, fields, hsup, hsub, hstart⟩
    refine ⟨inherited, fields, ?_, ?_, hstart⟩
    · exact bind_eq_ok_iff.mpr ⟨inherited, hsup, rfl⟩
    · exact bind_eq_ok_iff.mpr ⟨fields, hsub, rfl⟩
  · intro f i hi
    rcases answer_fieldIndex_iff.mp hi with ⟨found, hfound, hindex⟩
    rcases hlists .perObject with ⟨inherited, fields, hsup, hsub, hstart⟩
    cases hfound.symm.trans hsup
    exact answer_fieldIndex_iff.mpr ⟨fields, hsub, position32?_of_isPrefix hstart hindex⟩

-- a tile has a field of the same name at another position
theorem identity_keeps_position_in_tile :
    answerAfter Shapes.table [] (.fieldIndex Shapes.shape ⟨1⟩) = .ok (.fieldIndex 0) ∧
      answerAfter Shapes.table [.fieldIndex Shapes.tile ⟨3⟩] (.fieldIndex Shapes.tile ⟨1⟩) =
        .ok (.fieldIndex 0) := by
  have hshape : answerAfter Shapes.table [] (.fieldIndex Shapes.shape ⟨1⟩) =
      .ok (.fieldIndex 0) := by
    decide +kernel
  refine ⟨hshape, ?_⟩
  exact (inherited_fields_keep_positions Shapes.reached Shapes.rooted (by decide)
    Shapes.tile_inherits_shape [] [.fieldIndex Shapes.tile ⟨3⟩]).2 ⟨1⟩ 0 hshape

end Layout

end ObjectAbi
