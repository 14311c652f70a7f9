import ObjectAbi.Proofs.Symbol.Decoding

/-!
# Symbols and signatures

Methods of one name share a dispatch slot when their formals erase to the same types, and they share
a symbol when their formals have the same codes. The two agree as long as every type parameter that
reaches a code erases to a class. A parameter bounded by an array or a primitive type is erased to
that type, but its code is that of a class: there, and only there, slots and symbols disagree.
-/

namespace ObjectAbi

namespace Ty

variable {ty : Ty} {c : ClassId}

/-- A type parameter in place of the type, or of the elements of an array, erases to a class. -/
def ClassBounded : Ty → Prop
  | parameter _ (some bound) => bound.erase.head?.isSome
  | array element => element.ClassBounded
  | _ => True

instance decidableClassBounded : (ty : Ty) → Decidable ty.ClassBounded
  | void | null | primitive _ | classType _ _ | parameter _ none =>
    inferInstanceAs (Decidable True)
  | parameter _ (some bound) => inferInstanceAs (Decidable (bound.erase.head?.isSome = true))
  | array element => decidableClassBounded element

-- a type that erases to a class has that class at run time, and erases to nothing else.
theorem erase_head?_eq_some (h : ty.erase.head? = some c) :
    ty.erase = ofClass c ∧ ty.erasedClass? = some c := by
  induction ty using erase.induct with
  | case1 d args =>
    rw [← Option.some.inj h]
    exact ⟨rfl, rfl⟩
  | case2 name =>
    rw [← Option.some.inj h]
    exact ⟨rfl, rfl⟩
  | case3 name bound ih =>
    rw [erase] at h
    rw [erase, erasedClass?]
    exact ih h
  | case4 element ih => cases h
  | case5 => cases h
  | case6 => cases h
  | case7 p => cases h

end Ty

namespace Symbol

variable {t : ClassTable} {ty : Ty}

/-! ## What a symbol shows of a type, and what a slot sees -/

theorem coded_erase (hnull : .null ∉ ty.parts) : coded ty.erase = ty.erase := by
  induction ty using Ty.erase.induct with
  | case1 c args => rfl
  | case2 name => rfl
  | case3 name bound ih =>
    rw [Ty.erase]
    exact ih fun h ↦ hnull (Ty.parts_bound_subset name bound h)
  | case4 element ih =>
    rw [Ty.erase, coded, ih fun h ↦ hnull (Ty.parts_element_subset element h)]
  | case5 => rfl
  | case6 => exact absurd (Ty.mem_parts_self .null) hnull
  | case7 p => rfl

theorem coded_coded (ty : Ty) : coded (coded ty) = coded ty := by
  induction ty using coded.induct with
  | case6 element ih => rw [coded, coded, ih]
  | _ => rfl

theorem erase_coded (ty : Ty) : (coded ty).erase = coded ty := by
  induction ty using coded.induct with
  | case6 element ih => rw [coded, Ty.erase, ih]
  | _ => rfl

theorem coded_eq_erase_iff (hnull : .null ∉ ty.parts) : coded ty = ty.erase ↔ ty.ClassBounded := by
  induction ty using coded.induct with
  | case1 => exact iff_of_true rfl trivial
  | case2 => exact absurd (Ty.mem_parts_self .null) hnull
  | case3 p => exact iff_of_true rfl trivial
  | case4 c args => exact iff_of_true rfl trivial
  | case5 name bound =>
    cases bound with
    | none => exact iff_of_true rfl trivial
    | some bound =>
      rw [Ty.erase, Ty.ClassBounded, coded, Ty.erasedClass?]
      refine ⟨fun h ↦ by rw [← h]; rfl, fun h ↦ ?_⟩
      rcases Option.isSome_iff_exists.mp h with ⟨c, hc⟩
      rcases Ty.erase_head?_eq_some hc with ⟨herase, hclass⟩
      rw [herase, hclass]
      rfl
  | case6 element ih =>
    rw [Ty.erase, coded, Ty.ClassBounded, Ty.array.injEq]
    exact ih fun h ↦ hnull (Ty.parts_element_subset element h)

-- a code depends only on what is shown of the type.
theorem typeCode_coded (t : ClassTable) (ty : Ty) : typeCode t (coded ty) = typeCode t ty := by
  induction ty using coded.induct with
  | case1 => rfl
  | case2 => rfl
  | case3 p => rfl
  | case4 c args => rfl
  | case5 name bound => rfl
  | case6 element ih => rw [coded, typeCode, typeCode, ih]

-- a code shows one type, when class names are distinct.
theorem Codes.unique (hdistinct : NamesDistinct t) {ty ty' : Ty} {code : List Char}
    (h : Codes t ty code) (h' : Codes t ty' code) : ty = ty' := by
  induction h generalizing ty' with
  | void => exact h'.eq_void.1.symm
  | primitive p => exact h'.eq_primitive.1.symm
  | @ofClass c d hd =>
    rcases h'.eq_ofClass with ⟨c', d', rfl, hd', hcode⟩
    have hname := sized_injective hcode
    rw [hdistinct c d hd c' d' hd' hname]
  | array helement ih =>
    rcases h'.eq_array with ⟨element', rfl, helement'⟩
    rw [ih helement']

/-! ## Lists of formals -/

-- lists of types have the same codes exactly when the same is shown of their types.
theorem mapM_typeCode_eq_iff (hdistinct : NamesDistinct t) {tys tys' : List Ty}
    {codes codes' : List (List Char)}
    (hcodes : tys.mapM (typeCode t) = .ok codes) (hcodes' : tys'.mapM (typeCode t) = .ok codes') :
    codes = codes' ↔ tys.map coded = tys'.map coded := by
  have hshown : ∀ {tys : List Ty} {codes}, tys.mapM (typeCode t) = .ok codes ↔
      (tys.map coded).mapM (typeCode t) = .ok codes := by
    intro tys codes
    rw [List.mapM_map]
    simp only [Function.comp_def, typeCode_coded]
  refine ⟨?_, ?_⟩
  · intro heq
    subst heq
    have hall := mapM_eq_ok_iff.mp hcodes
    have hall' := mapM_eq_ok_iff.mp hcodes'
    clear hcodes hcodes'
    induction hall generalizing tys' with
    | nil =>
      cases hall'
      rfl
    | cons hcode hrest ih =>
      cases hall' with
      | cons hcode' hrest' =>
        rw [List.map_cons, List.map_cons, ih hrest',
          Codes.unique hdistinct (codes_of_typeCode hcode) (codes_of_typeCode hcode')]
  · intro heq
    have hsame := hshown.mp hcodes
    rw [heq, hshown.mp hcodes'] at hsame
    exact (Except.ok.inj hsame).symm

-- formals erase to what is shown of them exactly if their type parameters erase to classes.
theorem map_coded_eq_map_erase_iff {tys : List Ty} (hnull : ∀ ty ∈ tys, .null ∉ ty.parts) :
    tys.map coded = tys.map Ty.erase ↔ ∀ ty ∈ tys, ty.ClassBounded := by
  rw [List.map_inj_left]
  exact forall₂_congr fun ty hty ↦ coded_eq_erase_iff (hnull ty hty)

-- where every type is already as it should be, a second pass over a list changes nothing.
theorem map_map_of_fixes {f g : Ty → Ty} {tys : List Ty} (h : ∀ ty ∈ tys, f (g ty) = g ty) :
    (tys.map g).map f = tys.map g := by
  rw [List.map_map, List.map_inj_left]
  exact h

/-! ## Methods of one class and one name -/

-- procedures share a symbol exactly when they have one container and one emitted name, and the same
-- is shown of their formals.
theorem procedure_symbol_eq_iff (hnames : NamesDelimited t) (hdistinct : NamesDistinct t)
    {m n : MethodDecl} (hm : ¬ DigitFirst (emittedName m).toList)
    (hn : ¬ DigitFirst (emittedName n).toList) {symbol symbol' : String}
    (hsymbol : procedure t m = .ok symbol) (hsymbol' : procedure t n = .ok symbol') :
    symbol = symbol' ↔ m.container = n.container ∧ emittedName m = emittedName n ∧
      m.formals.map coded = n.formals.map coded := by
  obtain ⟨d, codes, hd, hcodes, rfl⟩ := procedure_eq_ok_iff.mp hsymbol
  obtain ⟨d', codes', hd', hcodes', rfl⟩ := procedure_eq_ok_iff.mp hsymbol'
  have hshown := mapM_typeCode_eq_iff hdistinct hcodes hcodes'
  constructor
  · intro heq
    obtain ⟨hclass, hname, hsame⟩ := procedureText_inj hnames (hnames _ d hd) (hnames _ d' hd')
      hm hn (codes_of_mapM hcodes) (codes_of_mapM hcodes') heq
    exact ⟨hdistinct _ d hd _ d' hd' hclass, hname, hshown.mp hsame⟩
  · intro h
    obtain ⟨hcontainer, hname, hformals⟩ := h
    have hsame : d = d' := by
      rw [hcontainer] at hd
      exact Except.ok.inj (hd.symm.trans hd')
    rw [hsame, hname, hshown.mpr hformals]

-- methods of one class and one name share a symbol exactly when the same is shown of their
-- formals.
theorem procedure_eq_iff (hnames : NamesDelimited t) (hdistinct : NamesDistinct t)
    {m n : MethodDecl} (hcontainer : m.container = n.container)
    (hname : emittedName m = emittedName n) (hfirst : ¬ DigitFirst (emittedName m).toList)
    {symbol symbol' : String} (hsymbol : procedure t m = .ok symbol)
    (hsymbol' : procedure t n = .ok symbol') :
    symbol = symbol' ↔ m.formals.map coded = n.formals.map coded := by
  rw [procedure_symbol_eq_iff hnames hdistinct hfirst (hname ▸ hfirst) hsymbol hsymbol']
  simp only [hcontainer, hname, true_and]

/-- Two methods of one class and one name share a symbol exactly when they share a slot, as long as
all type parameters in their formals erase to classes. With any other parameter the two part, in
both directions: there are formals that share the slot and not the symbol, and formals that share
the symbol and not the slot. -/
theorem overloads_share_symbol_iff_overrides (hreached : t.Reached) (hnames : NamesDelimited t)
    (hdistinct : NamesDistinct t)
    {i j : MethodId} {m n : MethodDecl} (hm : t.methodDecl i = .ok m) (hn : t.methodDecl j = .ok n)
    (hmkind : m.kind = .method) (hnkind : n.kind = .method) (hcontainer : m.container = n.container)
    (hname : m.name = n.name) (hfirst : ¬ DigitFirst m.name.toList)
    (hmformals : ∀ ty ∈ m.formals, .void ∉ ty.parts ∧ .null ∉ ty.parts)
    (hnformals : ∀ ty ∈ n.formals, .void ∉ ty.parts ∧ .null ∉ ty.parts) :
    ((∀ ty ∈ m.formals ++ n.formals, t.Knows ty) →
      ∃ symbol symbol', procedure t m = .ok symbol ∧ procedure t n = .ok symbol') ∧
    ∀ symbol symbol', procedure t m = .ok symbol → procedure t n = .ok symbol' →
      (symbol = symbol' ↔ m.formals.map coded = n.formals.map coded) ∧
      ((∀ ty ∈ m.formals ++ n.formals, ty.ClassBounded) →
        (symbol = symbol' ↔ m.erasedFormals = n.erasedFormals) ∧
        (symbol = symbol' ↔ m.overrides n)) ∧
      ((∃ ty ∈ m.formals, ¬ ty.ClassBounded) →
        (n.formals = m.erasedFormals → m.overrides n ∧ symbol ≠ symbol') ∧
        (n.formals = m.formals.map coded → ¬ m.overrides n ∧ symbol = symbol')) := by
  have hmnull : ∀ ty ∈ m.formals, .null ∉ ty.parts := fun ty hty ↦ (hmformals ty hty).2
  have hnnull : ∀ ty ∈ n.formals, .null ∉ ty.parts := fun ty hty ↦ (hnformals ty hty).2
  have hmemitted := emittedName_of_method hmkind
  have hnemitted := emittedName_of_method hnkind
  have hoverrides : m.overrides n ↔ m.erasedFormals = n.erasedFormals := by
    simp [MethodDecl.overrides, hname]
  refine ⟨?_, ?_⟩
  · intro hknown
    rcases exists_procedure hreached.consistent hm fun ty hty ↦
      hknown ty (List.mem_append_left _ hty) with ⟨d, codes, -, -, hsymbol⟩
    rcases exists_procedure hreached.consistent hn fun ty hty ↦
      hknown ty (List.mem_append_right _ hty) with ⟨d', codes', -, -, hsymbol'⟩
    exact ⟨_, _, hsymbol, hsymbol'⟩
  intro symbol symbol' hsymbol hsymbol'
  have hshown : symbol = symbol' ↔ m.formals.map coded = n.formals.map coded :=
    procedure_eq_iff hnames hdistinct hcontainer (by rw [hmemitted, hnemitted, hname])
      (hmemitted ▸ hfirst) hsymbol hsymbol'
  refine ⟨hshown, ?_⟩
  simp only [ne_eq, hoverrides, hshown]
  unfold MethodDecl.erasedFormals
  refine ⟨?_, ?_⟩
  · intro hbounded
    have hmagree := (map_coded_eq_map_erase_iff hmnull).mpr fun ty hty ↦
      hbounded ty (List.mem_append_left _ hty)
    have hnagree := (map_coded_eq_map_erase_iff hnnull).mpr fun ty hty ↦
      hbounded ty (List.mem_append_right _ hty)
    -- where shown and erased formals are the same, so are the two ways to compare them
    rw [hmagree, hnagree]
    exact ⟨Iff.rfl, Iff.rfl⟩
  · intro hunbounded
    -- then the formals as shown and the formals as erased are two lists
    have hpart : m.formals.map coded ≠ m.formals.map Ty.erase := by
      intro hagree
      rcases hunbounded with ⟨ty, hty, hty'⟩
      exact hty' ((map_coded_eq_map_erase_iff hmnull).mp hagree ty hty)
    refine ⟨?_, ?_⟩
    · intro herased
      rw [herased, map_map_of_fixes fun ty _ ↦ Ty.erase_erase ty,
        map_map_of_fixes fun ty hty ↦ coded_erase (hmnull ty hty)]
      exact ⟨rfl, hpart⟩
    · intro hcoded
      rw [hcoded, map_map_of_fixes fun ty _ ↦ erase_coded ty,
        map_map_of_fixes fun ty _ ↦ coded_coded ty]
      exact ⟨hpart.symm, rfl⟩

namespace ArrayOverloads

def takesArray : MethodDecl := ⟨"m", ⟨3⟩, {}, .method, [.array .int], .void⟩

def takesParameter : MethodDecl :=
  ⟨"m", ⟨3⟩, {}, .method, [.parameter "T" (some (.array .int))], .void⟩

def takesAnyArray : MethodDecl := ⟨"m", ⟨3⟩, {}, .method, [.ofClass Builtin.array], .void⟩

/-- Overloads that take an array, a parameter bounded by that array, and the class of all arrays. -/
def table : ClassTable := .ofDeclarations <|
  .newClass "C" {} none ["T"] :: [takesArray, takesParameter, takesAnyArray].map fun m ↦
    .method m.container m.name m.modifiers m.formals m.result

end ArrayOverloads

open ArrayOverloads in
-- one slot under two symbols, and one symbol for two slots
theorem array_bound_parts_symbols_from_slots :
    takesParameter.overrides takesArray ∧
      procedure table takesParameter ≠ procedure table takesArray ∧
      ¬ takesParameter.overrides takesAnyArray ∧
      procedure table takesParameter = procedure table takesAnyArray := by
  have hreached : table.Reached := ClassTable.reached_ofDeclarations _
  have hnames : NamesDelimited table := by decide +kernel
  have hdistinct : NamesDistinct table := by decide +kernel
  have hparameter : table.methodDecl ⟨1⟩ = .ok takesParameter := rfl
  have harray := overloads_share_symbol_iff_overrides hreached hnames hdistinct hparameter
    (show table.methodDecl ⟨0⟩ = .ok takesArray from rfl) rfl rfl rfl rfl (by decide +kernel)
    (by decide +kernel) (by decide +kernel)
  have hany := overloads_share_symbol_iff_overrides hreached hnames hdistinct hparameter
    (show table.methodDecl ⟨2⟩ = .ok takesAnyArray from rfl) rfl rfl rfl rfl (by decide +kernel)
    (by decide +kernel) (by decide +kernel)
  rcases harray.1 (by decide +kernel) with ⟨symbol, symbol', hsymbol, hsymbol'⟩
  rcases hany.1 (by decide +kernel) with ⟨-, symbol'', -, hsymbol''⟩
  have hunbounded : ∃ ty ∈ takesParameter.formals, ¬ ty.ClassBounded := by decide
  have hpart := ((harray.2 symbol symbol' hsymbol hsymbol').2.2 hunbounded).1 rfl
  have hmeet := ((hany.2 symbol symbol'' hsymbol hsymbol'').2.2 hunbounded).2 rfl
  refine ⟨hpart.1, ?_, hmeet.1, ?_⟩
  · rw [hsymbol, hsymbol']
    exact fun heq ↦ hpart.2 (Except.ok.inj heq)
  · rw [hsymbol, hsymbol'', hmeet.2]

open ArrayOverloads in
theorem array_bound_refutes_one_symbol_one_slot :
    ¬ ∀ (t : ClassTable) (i j : MethodId) (m n : MethodDecl), t.Reached →
      NamesDelimited t → NamesDistinct t →
      t.methodDecl i = .ok m → t.methodDecl j = .ok n → m.kind = .method → n.kind = .method →
      m.container = n.container → m.name = n.name → ¬ DigitFirst m.name.toList →
      (∀ ty ∈ m.formals, .void ∉ ty.parts ∧ .null ∉ ty.parts) →
      (∀ ty ∈ n.formals, .void ∉ ty.parts ∧ .null ∉ ty.parts) →
      ∀ symbol symbol', procedure t m = .ok symbol → procedure t n = .ok symbol' →
        (symbol = symbol' ↔ m.erasedFormals = n.erasedFormals) := by
  intro hsymbol_iff_slot
  have hiff := hsymbol_iff_slot table ⟨1⟩ ⟨0⟩ takesParameter takesArray
    (ClassTable.reached_ofDeclarations _) (by decide +kernel) (by decide +kernel) rfl rfl
    rfl rfl rfl rfl (by decide +kernel) (by decide +kernel) (by decide +kernel)
    "_J1C1m_L15jolt.lang.Array" "_J1C1m_AI"
    (by decide +kernel) (by decide +kernel)
  exact absurd (hiff.mpr rfl) (by decide)

end Symbol

end ObjectAbi
