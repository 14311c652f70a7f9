import ObjectAbi.Ty

/-!
# Erasure

Generic classes have one run-time class for all their instances. Erasing a type drops its type
arguments and puts the bound of a type parameter in the parameter's place, or the root class where
there is no bound. Layouts, dispatch vectors and symbols see types only through erasure.
-/

namespace ObjectAbi.Ty

/-- The class whose layout the values of a type have: a parameter has that of its bound, and all
arrays share one. Primitive types, `void` and the null type have none. -/
def erasedClass? : Ty → Option ClassId
  | classType c _ => some c
  | parameter _ none => some Builtin.object
  | parameter _ (some bound) => bound.erasedClass?
  | array _ => some Builtin.array
  | void | null | primitive _ => none

/-- The type without type arguments and type parameters, at every depth of arrays. -/
def erase : Ty → Ty
  | classType c _ => ofClass c
  | parameter _ none => ofClass Builtin.object
  | parameter _ (some bound) => bound.erase
  | array t => array t.erase
  | void => void
  | null => null
  | primitive p => primitive p

theorem erase_erase (ty : Ty) : ty.erase.erase = ty.erase := by
  induction ty using erase.induct with
  | case3 name bound ih => exact ih
  | case4 element ih => rw [erase, erase, ih]
  | _ => rfl

-- a type and what it erases to have one run-time class.
theorem erasedClass?_erase (ty : Ty) : ty.erase.erasedClass? = ty.erasedClass? := by
  induction ty using erase.induct with
  | case3 name bound ih => exact ih
  | _ => rfl

end ObjectAbi.Ty
