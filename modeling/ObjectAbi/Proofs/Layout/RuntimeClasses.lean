import ObjectAbi.Proofs.ClassTable.KnownTypes
import ObjectAbi.Proofs.Layout.Remembered

/-!
# Erased types and run-time classes

A type is erased in two ways: to the type that is left when type arguments and parameters are gone
at every depth of arrays, and to the class that its values have at run time, which stops at the
first array. The class can be read off the erased type alone. A type has no class exactly when it
erases to `void`, the null type or a primitive type, and then a layout reports it.
-/

namespace ObjectAbi

namespace Ty

/-! ## Types that are erased -/

/-- The type is a type parameter, or a class that is applied to type arguments. What its elements
are made of does not count. -/
def isGeneric : Ty → Bool
  | classType _ args => !args.isEmpty
  | parameter _ _ => true
  | void | null | primitive _ | array _ => false

/-- No type parameter and no type arguments stand in the type at any depth. -/
def IsErased (ty : Ty) : Prop := ∀ part ∈ ty.parts, part.isGeneric = false

instance (ty : Ty) : Decidable ty.IsErased :=
  inferInstanceAs (Decidable (∀ part ∈ ty.parts, part.isGeneric = false))

theorem isErased_ofClass (c : ClassId) : (ofClass c).IsErased := by
  simp [IsErased, parts, partsAll, isGeneric]

theorem isErased_array_iff {element : Ty} : (array element).IsErased ↔ element.IsErased := by
  simp [IsErased, parts, isGeneric]

theorem IsErased.isGeneric_eq_false {ty : Ty} (h : ty.IsErased) : ty.isGeneric = false :=
  h ty ty.mem_parts_self

theorem isErased_erase (ty : Ty) : ty.erase.IsErased := by
  induction ty using erase.induct with
  | case1 c args => exact isErased_ofClass c
  | case2 name => exact isErased_ofClass Builtin.object
  | case3 name bound ih => exact ih
  | case4 element ih => exact isErased_array_iff.mpr ih
  | case5 => decide
  | case6 => decide
  | case7 p => simp [erase, IsErased, parts, isGeneric]

theorem IsErased.erase_eq {ty : Ty} (h : ty.IsErased) : ty.erase = ty := by
  induction ty using erase.induct with
  | case1 c args =>
    have hargs : args = [] := by simpa [isGeneric] using h.isGeneric_eq_false
    rw [hargs, erase]
  | case2 name => exact absurd h.isGeneric_eq_false (by simp [isGeneric])
  | case3 name bound => exact absurd h.isGeneric_eq_false (by simp [isGeneric])
  | case4 element ih => rw [erase, ih (isErased_array_iff.mp h)]
  | _ => rfl

theorem erase_eq_self_iff {ty : Ty} : ty.erase = ty ↔ ty.IsErased :=
  ⟨fun heq ↦ heq ▸ ty.isErased_erase, IsErased.erase_eq⟩

/-! ## The class of an erased type -/

theorem erasedClass?_eq_some_iff {ty : Ty} {c : ClassId} :
    ty.erasedClass? = some c ↔
      ty.erase = ofClass c ∨ (∃ element, ty.erase = array element) ∧ c = Builtin.array := by
  -- a bound decides for its parameter; every other type shows its class and what it erases to
  induction ty using erase.induct with
  | case1 d args => simp [erasedClass?, erase]
  | case2 name => simp [erasedClass?, erase]
  | case3 name bound ih => exact ih
  | case4 element ih => simp [erasedClass?, erase, eq_comm]
  | case5 => simp [erasedClass?, erase]
  | case6 => simp [erasedClass?, erase]
  | case7 p => simp [erasedClass?, erase]

theorem erasedClass?_eq_none_iff {ty : Ty} :
    ty.erasedClass? = none ↔ ty.erase = void ∨ ty.erase = null ∨ ∃ p, ty.erase = primitive p := by
  induction ty using erase.induct with
  | case3 name bound ih => exact ih
  | _ => simp [erasedClass?, erase]

end Ty

/-! ## Reports -/

-- a type without a class is written without looking at the table.
theorem ClassTable.exists_display_of_classless (t : ClassTable) {ty : Ty}
    (h : ty.erasedClass? = none) : ∃ text, t.display ty = .ok text := by
  cases ty with
  | classType c args => cases h
  | array element => cases h
  | _ => exact ⟨_, rfl⟩

namespace Layout

-- what is remembered plays no part in the class of a type.
theorem answerAfter_erasedClass (t : ClassTable) (before : List Query) (ty : Ty)
    (context : String) :
    answerAfter t before (.erasedClass ty context) = erasedClass t ty context := by
  have hrecall : (Query.erasedClass ty context).recall t =
      liftM (erasedClass t ty context) >>= logged := rfl
  rw [answerAfter, hrecall]
  cases erasedClass t ty context with
  | error fault => rfl
  | ok answer => cases answer <;> rfl

theorem erasedClass_of_some {t : ClassTable} {ty : Ty} {c : ClassId}
    (h : ty.erasedClass? = some c) (context : String) :
    erasedClass t ty context = .ok (.erasedClass c) := by
  rw [erasedClass, h]
  rfl

theorem erasedClass_of_none {t : ClassTable} {ty : Ty} {text : String}
    (h : ty.erasedClass? = none) (htext : t.display ty = .ok text) (context : String) :
    erasedClass t ty context = .ok (.internalError (.unhandledReferenceType text context)) := by
  rw [erasedClass, h, htext]
  rfl

/-- Erasure is a projection onto the types without type parameters and type arguments, and the
erased type decides the run-time class: a class stands for itself, every array type for the class of
arrays, and only `void`, the null type and the primitive types have none. These are the types that a
layout reports, whatever it was asked before. -/
theorem erasure_decides_runtime_class (t : ClassTable) (ty : Ty) (before : List Query)
    (context : String) :
    ty.erase.erase = ty.erase ∧
    ty.erase.IsErased ∧
    (ty.erase = ty ↔ ty.IsErased) ∧
    ty.erase.erasedClass? = ty.erasedClass? ∧
    (∀ c, ty.erasedClass? = some c ↔
      ty.erase = .ofClass c ∨ (∃ element, ty.erase = .array element) ∧ c = Builtin.array) ∧
    (ty.erasedClass? = none ↔
      ty.erase = .void ∨ ty.erase = .null ∨ ∃ p, ty.erase = .primitive p) ∧
    (ty.erasedClass? = none ↔
      ∃ text, t.display ty = .ok text ∧
        answerAfter t before (.erasedClass ty context) =
          .ok (.internalError (.unhandledReferenceType text context))) := by
  refine ⟨ty.erase_erase, ty.isErased_erase, Ty.erase_eq_self_iff, ty.erasedClass?_erase,
    fun c ↦ Ty.erasedClass?_eq_some_iff, Ty.erasedClass?_eq_none_iff, ?_⟩
  rw [answerAfter_erasedClass]
  constructor
  · intro hnone
    obtain ⟨text, htext⟩ := t.exists_display_of_classless hnone
    exact ⟨text, htext, erasedClass_of_none hnone htext context⟩
  · rintro ⟨text, -, hreport⟩
    cases hclass : ty.erasedClass? with
    | none => rfl
    | some c =>
      -- a type with a class is answered with it, so nothing is reported
      rw [erasedClass_of_some hclass] at hreport
      cases hreport

-- a parameter that is bounded by an array of a parameter that is bounded by a primitive type.
example : (Ty.parameter "T" (some (.array (.parameter "U" (some .int))))).erase = .array .int := rfl

end Layout

end ObjectAbi
