import ObjectAbi.ClassTable.TypeText
import ObjectAbi.Proofs.ClassTable.Members

/-!
# Known types

What a type is made of, at every depth, and the types that mention declared classes only. Nothing
checks the classes in a type when it is written into a declaration; a type whose classes are all
declared can be erased, looked up and written as text without a fault.
-/

namespace ObjectAbi

namespace Ty

mutual

/-- The type itself, and everything that its arguments, its bound or its elements are made of. -/
def parts : Ty → List Ty
  | void => [void]
  | null => [null]
  | primitive p => [primitive p]
  | classType c args => classType c args :: partsAll args
  | parameter name none => [parameter name none]
  | parameter name (some bound) => parameter name (some bound) :: parts bound
  | array element => array element :: parts element

/-- What several types are made of. -/
def partsAll : List Ty → List Ty
  | [] => []
  | ty :: tys => parts ty ++ partsAll tys

end

theorem mem_parts_self (ty : Ty) : ty ∈ ty.parts := by
  cases ty with
  | parameter name bound => cases bound <;> simp [parts]
  | _ => simp [parts]

theorem parts_bound_subset (name : String) (bound : Ty) :
    bound.parts ⊆ (parameter name (some bound)).parts := by
  rw [parts]
  exact List.subset_cons_self _ _

theorem parts_element_subset (element : Ty) : element.parts ⊆ (array element).parts := by
  rw [parts]
  exact List.subset_cons_self _ _

theorem parts_subset_partsAll {ty : Ty} {tys : List Ty} (h : ty ∈ tys) :
    ty.parts ⊆ partsAll tys := by
  induction tys with
  | nil => cases h
  | cons first tys ih =>
    rw [partsAll]
    obtain rfl | hrest := List.mem_cons.mp h
    · exact List.subset_append_left _ _
    · exact List.Subset.trans (ih hrest) (List.subset_append_right _ _)

theorem parts_arg_subset (c : ClassId) {ty : Ty} {args : List Ty} (h : ty ∈ args) :
    ty.parts ⊆ (classType c args).parts := by
  rw [parts]
  exact List.Subset.trans (parts_subset_partsAll h) (List.subset_cons_self _ _)

/-- The class that the type applies, if it is a class type. -/
def head? : Ty → Option ClassId
  | classType c _ => some c
  | _ => none

end Ty

namespace ClassTable

variable {t : ClassTable} {ty : Ty} {c : ClassId}

/-- Every class that the type mentions at any depth is declared. -/
def Knows (t : ClassTable) (ty : Ty) : Prop := ∀ c ∈ ty.parts.filterMap Ty.head?, t.Declared c

instance (t : ClassTable) (ty : Ty) : Decidable (t.Knows ty) :=
  inferInstanceAs (Decidable (∀ c ∈ ty.parts.filterMap Ty.head?, t.Declared c))

theorem Knows.of_subset {ty' : Ty} (h : t.Knows ty) (hsub : ty'.parts ⊆ ty.parts) :
    t.Knows ty' :=
  fun c hc ↦ h c (List.filterMap_subset _ hsub hc)

theorem Knows.classType {args : List Ty} (h : t.Knows (.classType c args)) : t.Declared c :=
  h c (List.mem_filterMap.mpr ⟨_, Ty.mem_parts_self _, rfl⟩)

-- a type that is known stays known when further classes are declared.
theorem Knows.of_size_le {t' : ClassTable} (h : t.Knows ty)
    (hsize : t.classes.size ≤ t'.classes.size) : t'.Knows ty :=
  fun c hc ↦ Nat.lt_of_lt_of_le (h c hc) hsize

-- the class that a known type has at run time is declared.
theorem Knows.erasedClass (h : t.Knows ty) (ht : t.Consistent) (hc : ty.erasedClass? = some c) :
    t.Declared c := by
  induction ty using Ty.erasedClass?.induct with
  | case1 d args =>
    rw [← Option.some.inj hc]
    exact h.classType
  | case2 name =>
    rw [← Option.some.inj hc]
    exact ht.declared_builtin (by decide)
  | case3 name bound ih =>
    rw [Ty.erasedClass?] at hc
    exact ih (h.of_subset (Ty.parts_bound_subset name bound)) hc
  | case4 element =>
    rw [← Option.some.inj hc]
    exact ht.declared_builtin (by decide)
  | case5 => cases hc
  | case6 => cases hc
  | case7 p => cases hc

mutual

-- every known type has a text.
theorem exists_display : (ty : Ty) → t.Knows ty → ∃ text, t.display ty = .ok text
  | .void, _ | .null, _ | .primitive _, _ | .parameter _ _, _ => ⟨_, rfl⟩
  | .classType c args, h => by
    obtain ⟨texts, htexts⟩ := exists_displayAll args fun ty hty ↦
      h.of_subset (Ty.parts_arg_subset c hty)
    obtain ⟨d, hd⟩ := declared_iff.mp h.classType
    rw [display]
    exact ⟨_, bind_eq_ok_iff.mpr ⟨texts, htexts, bind_eq_ok_iff.mpr ⟨d, hd, rfl⟩⟩⟩
  | .array element, h => by
    obtain ⟨text, htext⟩ := exists_display element (h.of_subset (Ty.parts_element_subset element))
    rw [display]
    exact ⟨_, bind_eq_ok_iff.mpr ⟨text, htext, rfl⟩⟩

theorem exists_displayAll : (tys : List Ty) → (∀ ty ∈ tys, t.Knows ty) →
    ∃ texts, t.displayAll tys = .ok texts
  | [], _ => ⟨[], rfl⟩
  | ty :: tys, h => by
    obtain ⟨text, htext⟩ := exists_display ty (h ty List.mem_cons_self)
    obtain ⟨texts, htexts⟩ := exists_displayAll tys fun ty hty ↦ h ty (List.mem_cons_of_mem _ hty)
    rw [displayAll]
    exact ⟨_, bind_eq_ok_iff.mpr ⟨text, htext, bind_eq_ok_iff.mpr ⟨texts, htexts, rfl⟩⟩⟩

end

/-! ## Types in two tables -/

/-- The name of a class. -/
def className (t : ClassTable) (c : ClassId) : Except Fault String :=
  ClassDecl.name <$> t.classDecl c

-- what is worked out from a class's name needs no more of the class.
theorem classDecl_bind_name {β : Type} (t : ClassTable) (c : ClassId)
    (f : String → Except Fault β) :
    (do f (← t.classDecl c).name) = t.className c >>= f := by
  rw [className, bind_map_left]

variable {t' : ClassTable}

mutual

-- the text of a type shows nothing of a table but the names of the classes in the type.
theorem display_congr : (ty : Ty) →
    (∀ c ∈ ty.parts.filterMap Ty.head?, t'.className c = t.className c) →
    t'.display ty = t.display ty
  | .void, _ | .null, _ | .primitive _, _ | .parameter _ _, _ => rfl
  | .classType c args, h => by
    have hargs := displayAll_congr args fun ty hty c hc ↦
      h c (List.filterMap_subset _ (Ty.parts_arg_subset _ hty) hc)
    have hname := h c (List.mem_filterMap.mpr ⟨_, Ty.mem_parts_self _, rfl⟩)
    rw [display, display, hargs]
    refine bind_congr fun texts ↦ ?_
    rw [t'.classDecl_bind_name c fun name ↦
      pure (if texts.isEmpty then name else name ++ "<" ++ ", ".intercalate texts ++ ">"), hname,
      ← t.classDecl_bind_name]
  | .array element, h => by
    rw [display, display, display_congr element fun c hc ↦
      h c (List.filterMap_subset _ (Ty.parts_element_subset element) hc)]

theorem displayAll_congr : (tys : List Ty) →
    (∀ ty ∈ tys, ∀ c ∈ ty.parts.filterMap Ty.head?, t'.className c = t.className c) →
    t'.displayAll tys = t.displayAll tys
  | [], _ => rfl
  | ty :: tys, h => by
    rw [displayAll, displayAll, display_congr ty (h ty List.mem_cons_self),
      displayAll_congr tys fun ty hty ↦ h ty (List.mem_cons_of_mem _ hty)]

end

end ClassTable

end ObjectAbi
