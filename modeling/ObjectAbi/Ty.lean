import ObjectAbi.Ident

/-!
# Static types

The types that declarations and expressions carry. Two types are equal when they are written alike,
type arguments, parameter names and bounds included.
-/

namespace ObjectAbi

inductive Primitive
  | boolean
  | byte
  | short
  | char
  | int
  | long
  | float
  | double
deriving DecidableEq, Repr

namespace Primitive

def all : List Primitive := [boolean, byte, short, char, int, long, float, double]

/-- The word for the type in source text. -/
def name : Primitive → String
  | boolean => "boolean"
  | byte => "byte"
  | short => "short"
  | char => "char"
  | int => "int"
  | long => "long"
  | float => "float"
  | double => "double"

def isFloating : Primitive → Bool
  | float | double => true
  | _ => false

end Primitive

inductive Ty
  /-- The result of a procedure that yields no value. -/
  | void
  | null
  | primitive (p : Primitive)
  /-- A class, applied to type arguments if it has any. -/
  | classType (c : ClassId) (args : List Ty)
  /-- A type parameter of a generic class and its upper bound. -/
  | parameter (name : String) (bound : Option Ty)
  | array (element : Ty)
deriving Repr

namespace Ty

abbrev boolean : Ty := .primitive .boolean
abbrev int : Ty := .primitive .int
abbrev long : Ty := .primitive .long
abbrev double : Ty := .primitive .double

abbrev ofClass (c : ClassId) : Ty := .classType c []

def arrays : Nat → Ty → Ty
  | 0, t => t
  | n + 1, t => arrays n (.array t)

def isVoid : Ty → Bool
  | void => true
  | _ => false

def isBoolean : Ty → Bool
  | .primitive .boolean => true
  | _ => false

/-- Values of the type are references; the null type counts. -/
def isReference : Ty → Bool
  | null | classType _ _ | parameter _ _ | array _ => true
  | void | primitive _ => false

def isArray : Ty → Bool
  | array _ => true
  | _ => false

def element? : Ty → Option Ty
  | array t => some t
  | _ => none

/-! ## Equality -/

mutual

/-- The two types are written alike. -/
def same : Ty → Ty → Bool
  | void, void => true
  | null, null => true
  | primitive p, primitive q => p = q
  | classType c ts, classType d us => c = d && sameAll ts us
  | parameter n none, parameter m none => n = m
  | parameter n (some t), parameter m (some u) => n = m && same t u
  | array t, array u => same t u
  | _, _ => false

/-- The two lists have one length and are written alike at every position. -/
def sameAll : List Ty → List Ty → Bool
  | [], [] => true
  | t :: ts, u :: us => same t u && sameAll ts us
  | _, _ => false

end

mutual

theorem same_self : (t : Ty) → same t t = true
  | void | null => rfl
  | primitive _ => by simp [same]
  | classType _ ts => by simp [same, sameAll_self ts]
  | parameter _ none => by simp [same]
  | parameter _ (some t) => by simp [same, same_self t]
  | array t => by simp [same, same_self t]

theorem sameAll_self : (ts : List Ty) → sameAll ts ts = true
  | [] => rfl
  | t :: ts => by simp [sameAll, same_self t, sameAll_self ts]

end

mutual

theorem eq_of_same : (t u : Ty) → same t u = true → t = u
  | void, u, h => by cases u <;> simp_all [same]
  | null, u, h => by cases u <;> simp_all [same]
  | primitive _, u, h => by cases u <;> simp_all [same]
  | classType c ts, u, h => by
    cases u with
    | classType d us =>
      simp only [same, Bool.and_eq_true, decide_eq_true_eq] at h
      rw [h.1, eq_of_sameAll ts us h.2]
    | _ => simp [same] at h
  | parameter n none, u, h => by
    cases u with
    | parameter m b => cases b <;> simp_all [same]
    | _ => simp [same] at h
  | parameter n (some t), u, h => by
    cases u with
    | parameter m b =>
      cases b with
      | none => simp [same] at h
      | some u =>
        simp only [same, Bool.and_eq_true, decide_eq_true_eq] at h
        rw [h.1, eq_of_same t u h.2]
    | _ => simp [same] at h
  | array t, u, h => by
    cases u with
    | array u =>
      simp only [same] at h
      rw [eq_of_same t u h]
    | _ => simp [same] at h

theorem eq_of_sameAll : (ts us : List Ty) → sameAll ts us = true → ts = us
  | [], us, h => by cases us <;> simp_all [sameAll]
  | t :: ts, us, h => by
    cases us with
    | nil => simp [sameAll] at h
    | cons u us =>
      simp only [sameAll, Bool.and_eq_true] at h
      rw [eq_of_same t u h.1, eq_of_sameAll ts us h.2]

end

theorem same_iff {t u : Ty} : same t u = true ↔ t = u :=
  ⟨eq_of_same t u, fun h => h ▸ same_self t⟩

instance : DecidableEq Ty := fun t u => decidable_of_iff (same t u = true) same_iff

end Ty

end ObjectAbi
