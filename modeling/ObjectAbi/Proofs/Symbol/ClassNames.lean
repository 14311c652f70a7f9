import ObjectAbi.Proofs.ClassTable.KnownTypes
import ObjectAbi.Symbol

/-!
# Symbols and the names of classes

A symbol shows nothing of a table but the names of classes: that of the container, and at most one
for each formal. Where two tables give one name to each of these classes, a declaration has one
symbol in both.

How much of a declaration can be read off its symbol depends on these names. A name that begins with
a digit runs on from the length in front of it, and a name says which class is meant only if no
other class has it.
-/

namespace ObjectAbi.Symbol

variable {t t' : ClassTable} {c : ClassId}

/-! ## Names that can be read off a symbol -/

/-- The text begins with a decimal digit. -/
def DigitFirst (cs : List Char) : Prop := ∃ c ∈ cs.head?, c.isDigit

instance (cs : List Char) : Decidable (DigitFirst cs) :=
  match h : cs.head? with
  | none => .isFalse fun hd ↦ by
    rcases hd with ⟨c, hc, -⟩
    rw [h] at hc
    cases hc
  | some c =>
    if hc : c.isDigit then .isTrue ⟨c, h, hc⟩
    else .isFalse fun hd ↦ by
      rcases hd with ⟨c', hc', hdigit⟩
      rw [h] at hc'
      cases Option.some.inj hc'
      exact hc hdigit

/-- No class has a name that begins with a digit. -/
def NamesDelimited (t : ClassTable) : Prop :=
  ∀ c d, t.classDecl c = .ok d → ¬ DigitFirst d.name.toList

instance (t : ClassTable) : Decidable (NamesDelimited t) :=
  decidable_of_iff _ ClassTable.forall_classDecl_iff.symm

/-- No two classes share a name. -/
def NamesDistinct (t : ClassTable) : Prop :=
  ∀ c d, t.classDecl c = .ok d → ∀ c' d', t.classDecl c' = .ok d' → d.name = d'.name → c = c'

instance (t : ClassTable) : Decidable (NamesDistinct t) :=
  decidable_of_iff
    (∀ m < t.classes.size, ∀ d ∈ t.classes.get? (.ofIndex m),
      ∀ n < t.classes.size, ∀ d' ∈ t.classes.get? (.ofIndex n),
        d.name = d'.name → (.ofIndex m : ClassId) = .ofIndex n) <| by
    simp only [NamesDistinct, ClassTable.forall_classDecl_iff]

/-! ## The names that a symbol shows -/

/-- The class whose name the code of a type shows. -/
def shownClass? : Ty → Option ClassId
  | .void | .primitive _ => none
  | .null => some Builtin.object
  | .classType c _ => some c
  | .parameter name bound => some ((Ty.parameter name bound).erasedClass?.getD Builtin.object)
  | .array element => shownClass? element

theorem declared_of_shownClass (ht : t.Consistent) {ty : Ty} (hty : t.Knows ty)
    (hc : shownClass? ty = some c) : t.Declared c := by
  have hobject : t.Declared Builtin.object := ht.declared_builtin (by decide)
  induction ty using shownClass?.induct with
  | case1 => cases hc
  | case2 p => cases hc
  | case3 => exact Option.some.inj hc ▸ hobject
  | case4 d args => exact Option.some.inj hc ▸ hty.classType
  | case5 name bound =>
    rw [← Option.some.inj hc]
    cases herased : (Ty.parameter name bound).erasedClass? with
    | none => exact hobject
    | some d => exact hty.erasedClass ht herased
  | case6 element ih => exact ih (hty.of_subset (Ty.parts_element_subset element)) hc

theorem classCode_congr (hname : t'.className c = t.className c) :
    classCode t' c = classCode t c := by
  have hcode : ∀ t : ClassTable, classCode t c = do return 'L' :: sized (← t.className c) := fun t ↦
    t.classDecl_bind_name c fun name ↦ pure ('L' :: sized name)
  rw [hcode, hcode, hname]

theorem typeCode_congr {ty : Ty} (hname : ∀ c ∈ shownClass? ty, t'.className c = t.className c) :
    typeCode t' ty = typeCode t ty := by
  induction ty using typeCode.induct with
  | case1 => rfl
  | case3 p => rfl
  | case2 | case4 | case5 => exact classCode_congr (hname _ rfl)
  | case6 element ih => rw [typeCode, typeCode, ih hname]

theorem procedure_congr {m : MethodDecl}
    (hcontainer : t'.className m.container = t.className m.container)
    (hformals : ∀ ty ∈ m.formals, ∀ c ∈ shownClass? ty, t'.className c = t.className c) :
    procedure t' m = procedure t m := by
  have hcodes : m.formals.mapM (typeCode t') = m.formals.mapM (typeCode t) :=
    mapM_congr fun ty hty ↦ typeCode_congr (hformals ty hty)
  have hsymbol : ∀ t : ClassTable, procedure t m = do
      return procedureText (← t.className m.container) (emittedName m)
        (← m.formals.mapM (typeCode t)) := fun t ↦
    t.classDecl_bind_name m.container fun name ↦ do
      return procedureText name (emittedName m) (← m.formals.mapM (typeCode t))
  rw [hsymbol, hsymbol, hcontainer, hcodes]

theorem staticField_congr {f : FieldDecl}
    (hcontainer : t'.className f.container = t.className f.container) :
    staticField t' f = staticField t f := by
  have hsymbol : ∀ t : ClassTable, staticField t f = do
      return staticFieldText (← t.className f.container) f.name := fun t ↦
    t.classDecl_bind_name f.container fun name ↦ pure (staticFieldText name f.name)
  rw [hsymbol, hsymbol, hcontainer]

end ObjectAbi.Symbol
