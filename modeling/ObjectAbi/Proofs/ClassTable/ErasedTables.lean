import ObjectAbi.Proofs.ClassTable.Hierarchy

/-!
# Erased tables

Declarations and tables are erased by erasing every type in them. Declaring and erasing commute, so
two programs that differ in their types only, and agree once these are erased, lead to tables that
agree once they are erased.
-/

namespace ObjectAbi

/-! ## Arenas -/

namespace Arena

variable {e : Entity} {α β : Type} (f : α → β) (a : Arena e α)

/-- The arena with every declaration changed. -/
def map : Arena e β := ⟨a.items.map f, by rw [Array.size_map]; exact a.size_le⟩

theorem size_map : (a.map f).size = a.size := by simp [size, map]

theorem get_map (i : Ident e) : (a.map f).get i = f <$> a.get i := by
  have hget : (a.map f).get? i = (a.get? i).map f := by simp [get?, map]
  rw [get, get, hget, size_map]
  cases a.get? i <;> rfl

theorem push_map (d : α) :
    (a.map f).push (f d) = (fun r ↦ (r.1, r.2.map f)) <$> a.push d := by
  unfold push
  by_cases h : a.items.size < Ident.capacity
  · have h' : (a.map f).items.size < Ident.capacity := by simpa [map] using h
    rw [dif_pos h, dif_pos h']
    simp [map, Functor.map, Except.map]
  · have h' : ¬ (a.map f).items.size < Ident.capacity := by simpa [map] using h
    rw [dif_neg h, dif_neg h']
    rfl

theorem update_map (u : α → α) (u' : β → β) (hu : ∀ d, f (u d) = u' (f d)) (i : Ident e) :
    (a.map f).update i u' = map f <$> a.update i u := by
  have hmodify : (a.items.map f).modify i.index u' = (a.items.modify i.index u).map f := by
    apply Array.ext_getElem?
    intro n
    rw [Array.getElem?_map, Array.getElem?_modify, Array.getElem?_modify, Array.getElem?_map]
    by_cases hn : i.index = n <;> cases a.items[n]? <;> simp [hn, hu]
  unfold update
  rw [size_map]
  by_cases h : i.index < a.size
  · rw [if_pos h, if_pos h]
    simp [map, Functor.map, Except.map, hmodify]
  · rw [if_neg h, if_neg h]
    rfl

end Arena

/-! ## Declarations -/

/-- The class with its superclass erased, and the names of its type parameters dropped. -/
def ClassDecl.erase (d : ClassDecl) : ClassDecl :=
  { d with superclass := d.superclass.map Ty.erase, typeParams := [] }

def FieldDecl.erase (d : FieldDecl) : FieldDecl := { d with ty := d.ty.erase }

def MethodDecl.erase (d : MethodDecl) : MethodDecl :=
  { d with formals := d.formals.map Ty.erase, result := d.result.erase }

def Declaration.erase : Declaration → Declaration
  | newClass name modifiers superclass _ => newClass name modifiers (superclass.map Ty.erase) []
  | field container name ty modifiers => field container name ty.erase modifiers
  | method container name modifiers formals result =>
    method container name modifiers (formals.map Ty.erase) result.erase
  | constructor container modifiers formals =>
    constructor container modifiers (formals.map Ty.erase)

-- erasing the superclass keeps the class that is inherited from.
theorem ClassDecl.superclass?_erase (d : ClassDecl) : d.erase.superclass? = d.superclass? := by
  cases hd : d.superclass <;> simp [superclass?, erase, hd, Ty.erasedClass?_erase]

namespace MethodDecl

theorem erase_ofConstructor (container : ClassId) (modifiers : Modifiers) (formals : List Ty) :
    (ofConstructor container modifiers formals).erase =
      .ofConstructor container modifiers (formals.map Ty.erase) :=
  rfl

theorem erasedFormals_erase (m : MethodDecl) : m.erase.erasedFormals = m.erasedFormals := by
  simp [erasedFormals, erase, Ty.erase_erase]

theorem overrides_erase (m base : MethodDecl) :
    m.erase.overrides base.erase = m.overrides base := by
  simp only [overrides, erasedFormals_erase]
  rfl

end MethodDecl

/-! ## Tables -/

namespace ClassTable

/-- The table with every type in it erased. -/
def erase (t : ClassTable) : ClassTable where
  classes := t.classes.map ClassDecl.erase
  fields := t.fields.map FieldDecl.erase
  methods := t.methods.map MethodDecl.erase
  names := t.names

variable (t : ClassTable)

theorem addClass_erase (name : String) (modifiers : Modifiers) (superclass : Option Ty)
    (typeParams : List String) :
    t.erase.addClass name modifiers (superclass.map Ty.erase) [] =
      (fun r ↦ (r.1, r.2.erase)) <$> t.addClass name modifiers superclass typeParams := by
  have hsuperclass : (superclass.map Ty.erase).getD (.ofClass Builtin.object) =
      (superclass.getD (.ofClass Builtin.object)).erase := by
    cases superclass <;> rfl
  have hpush := t.classes.push_map ClassDecl.erase ⟨name, modifiers,
    some (superclass.getD (.ofClass Builtin.object)), typeParams, [], []⟩
  simp only [ClassDecl.erase, Option.map_some] at hpush
  simp only [addClass, erase, hsuperclass, hpush, bind_map_left, map_bind]
  rfl

theorem addField_erase (decl : FieldDecl) :
    t.erase.addField decl.erase = (fun r ↦ (r.1, r.2.erase)) <$> t.addField decl := by
  simp only [addField, erase, Arena.push_map, bind_map_left, map_bind]
  refine bind_congr fun r ↦ ?_
  have hupdate := t.classes.update_map ClassDecl.erase
    (fun d ↦ { d with fields := d.fields ++ [r.1] })
    (fun d ↦ { d with fields := d.fields ++ [r.1] }) (fun _ ↦ rfl) decl.container
  simp only [FieldDecl.erase, hupdate, bind_map_left]
  rfl

theorem addMethod_erase (decl : MethodDecl) :
    t.erase.addMethod decl.erase = (fun r ↦ (r.1, r.2.erase)) <$> t.addMethod decl := by
  simp only [addMethod, erase, Arena.push_map, bind_map_left, map_bind]
  refine bind_congr fun r ↦ ?_
  have hupdate := t.classes.update_map ClassDecl.erase
    (fun d ↦ { d with methods := d.methods ++ [r.1] })
    (fun d ↦ { d with methods := d.methods ++ [r.1] }) (fun _ ↦ rfl) decl.container
  simp only [MethodDecl.erase, hupdate, bind_map_left]
  rfl

/-- Declaring an erased declaration in an erased table is declaring, and then erasing. -/
theorem declare_erase (d : Declaration) :
    t.erase.declare d.erase = (fun r ↦ (r.1, r.2.erase)) <$> t.declare d := by
  cases d with
  | newClass name modifiers superclass typeParams =>
    have hadd := t.addClass_erase name modifiers superclass typeParams
    simp only [declare, Declaration.erase, hadd, bind_map_left, map_bind]
    rfl
  | field container name ty modifiers =>
    have hadd := t.addField_erase ⟨name, container, ty, modifiers⟩
    simp only [FieldDecl.erase] at hadd
    simp only [declare, Declaration.erase, hadd, bind_map_left, map_bind]
    rfl
  | method container name modifiers formals result =>
    have hadd := t.addMethod_erase ⟨name, container, modifiers, .method, formals, result⟩
    simp only [MethodDecl.erase] at hadd
    simp only [declare, Declaration.erase, hadd, bind_map_left, map_bind]
    rfl
  | constructor container modifiers formals =>
    have hadd := t.addMethod_erase (.ofConstructor container modifiers formals)
    simp only [MethodDecl.erase_ofConstructor] at hadd
    simp only [declare, Declaration.erase, hadd, bind_map_left, map_bind]
    rfl

/-- Declaring erased declarations in an erased table is declaring all of them, and then erasing. -/
theorem declareAll_erase (ds : List Declaration) :
    t.erase.declareAll (ds.map Declaration.erase) = erase <$> t.declareAll ds := by
  induction ds generalizing t with
  | nil => rfl
  | cons d ds ih =>
    rw [List.map_cons, declareAll, declareAll, declare_erase]
    cases t.declare d with
    | error fault => rfl
    | ok r => exact ih r.2

end ClassTable

end ObjectAbi
