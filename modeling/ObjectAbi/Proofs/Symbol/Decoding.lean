import Mathlib.Data.List.TakeWhile
import Mathlib.Tactic.IntervalCases
import ObjectAbi.Proofs.Symbol.ClassNames

/-!
# Decoding symbols

A symbol runs its parts together without separators. It can be taken apart again as long as no name
in it begins with a digit: the digits in front of a name end where the name starts, they say how
many bytes to cut off, and the first letter of a type's code says how it goes on. Names may hold
anything else, and may be empty.
-/

namespace ObjectAbi.Symbol

/-! ## Lengths -/

theorem toDigits_injective {m n : Nat} (h : Nat.toDigits 10 m = Nat.toDigits 10 n) : m = n := by
  have hvalue := congrArg (Nat.ofDigitChars 10 · 0) h
  simpa using hvalue

-- only the number zero is written with a zero in front.
theorem head?_toDigits_ne_zero {n : Nat} (hn : 0 < n) :
    (Nat.toDigits 10 n).head? ≠ some '0' := by
  induction n using Nat.strong_induction_on with
  | h n ih =>
    by_cases hlt : n < 10
    · rw [Nat.toDigits_of_lt_base hlt]
      interval_cases n <;> decide
    · rw [Nat.toDigits_of_base_le (by decide) (by omega),
        List.head?_append_of_ne_nil _ Nat.toDigits_ne_nil]
      exact ih (n / 10) (by omega) (by omega)

theorem takeWhile_toDigits_append {n : Nat} {r : List Char} (hr : ¬ DigitFirst r) :
    (Nat.toDigits 10 n ++ r).takeWhile Char.isDigit = Nat.toDigits 10 n := by
  rw [List.takeWhile_append_of_pos fun c hc ↦
    Nat.isDigit_of_mem_toDigits (by decide) (by decide) hc]
  cases r with
  | nil => simp
  | cons c r =>
    have hc : ¬ c.isDigit := fun h ↦ hr ⟨c, rfl, h⟩
    rw [List.takeWhile_cons_of_neg hc, List.append_nil]

-- the digits of a length end where something else starts; those of zero end at once.
theorem toDigits_append_inj {m n : Nat} {r s : List Char} (hr : m ≠ 0 → ¬ DigitFirst r)
    (hs : n ≠ 0 → ¬ DigitFirst s) (h : Nat.toDigits 10 m ++ r = Nat.toDigits 10 n ++ s) :
    m = n ∧ r = s := by
  have hhead : (Nat.toDigits 10 m).head? = (Nat.toDigits 10 n).head? := by
    rw [← List.head?_append_of_ne_nil _ Nat.toDigits_ne_nil, h,
      List.head?_append_of_ne_nil _ Nat.toDigits_ne_nil]
  have hmn : m = n := by
    by_cases hm : m = 0
    · by_contra hn
      rw [hm, Nat.toDigits_zero] at hhead
      exact head?_toDigits_ne_zero (by omega) hhead.symm
    · by_cases hn : n = 0
      · rw [hn, Nat.toDigits_zero] at hhead
        exact absurd hhead (head?_toDigits_ne_zero (by omega))
      · apply toDigits_injective
        rw [← takeWhile_toDigits_append (hr hm), h, takeWhile_toDigits_append (hs hn)]
  subst hmn
  exact ⟨rfl, List.append_cancel_left h⟩

/-! ## Names -/

-- two names of one byte length that stand in front of one text are the same.
theorem toList_append_inj {a b : String} {r s : List Char} (hsize : a.utf8ByteSize = b.utf8ByteSize)
    (h : a.toList ++ r = b.toList ++ s) : a = b ∧ r = s := by
  -- one name continues the other, by a text of no bytes
  have hcontinue : ∀ {a b : String} {k : List Char}, a.utf8ByteSize = b.utf8ByteSize →
      b.toList = a.toList ++ k → k = [] := by
    intro a b k hsize hk
    have hb : b = a ++ String.ofList k := by
      apply String.toList_injective
      rw [hk, String.toList_append, String.toList_ofList]
    rw [hb, String.utf8ByteSize_append] at hsize
    have hempty : String.ofList k = "" := String.utf8ByteSize_eq_zero_iff.mp (by omega)
    simpa using congrArg String.toList hempty
  rcases List.append_eq_append_iff.mp h with ⟨k, hb, hr⟩ | ⟨k, ha, hs⟩
  · have hk := hcontinue hsize hb
    rw [hk, List.append_nil] at hb
    rw [hk, List.nil_append] at hr
    exact ⟨String.toList_injective hb.symm, hr⟩
  · have hk := hcontinue hsize.symm ha
    rw [hk, List.append_nil] at ha
    rw [hk, List.nil_append] at hs
    exact ⟨String.toList_injective ha, hs.symm⟩

-- a name after its length shows where it ends.
theorem sized_append_inj {a b : String} {r s : List Char} (ha : ¬ DigitFirst a.toList)
    (hb : ¬ DigitFirst b.toList) (h : sized a ++ r = sized b ++ s) : a = b ∧ r = s := by
  have hname : ∀ {a : String} {r : List Char}, ¬ DigitFirst a.toList → a.utf8ByteSize ≠ 0 →
      ¬ DigitFirst (a.toList ++ r) := by
    intro a r ha hsize hfirst
    have hne : a.toList ≠ [] := by
      intro hnil
      apply hsize
      rw [String.utf8ByteSize_eq_zero_iff]
      exact String.toList_injective hnil
    rw [DigitFirst, List.head?_append_of_ne_nil _ hne] at hfirst
    exact ha hfirst
  unfold sized at h
  rw [List.append_assoc, List.append_assoc] at h
  rcases toDigits_append_inj (hname ha) (hname hb) h with ⟨hsize, hrest⟩
  exact toList_append_inj hsize hrest

theorem length_toDigits_mono {m n : Nat} (h : m ≤ n) :
    (Nat.toDigits 10 m).length ≤ (Nat.toDigits 10 n).length := by
  have hn : n < 10 ^ (Nat.toDigits 10 n).length :=
    (Nat.length_toDigits_le_iff (by decide) Nat.length_toDigits_pos).mp (Nat.le_refl _)
  exact (Nat.length_toDigits_le_iff (by decide) Nat.length_toDigits_pos).mpr
    (Nat.lt_of_le_of_lt h hn)

-- where nothing follows, a name after its length may begin with digits.
theorem sized_injective : Function.Injective sized := by
  -- digits that one length has beyond the other would begin the other name; then the name with
  -- fewer digits in front of it would have no fewer bytes
  have hnone : ∀ {a b : String} {k : List Char},
      Nat.toDigits 10 b.utf8ByteSize = Nat.toDigits 10 a.utf8ByteSize ++ k →
      a.toList = k ++ b.toList → k = [] := by
    intro a b k hdigits hname
    have ha : a = String.ofList k ++ b := by
      apply String.toList_injective
      rw [hname, String.toList_append, String.toList_ofList]
    have hbytes : b.utf8ByteSize ≤ a.utf8ByteSize := by
      rw [ha, String.utf8ByteSize_append]
      exact Nat.le_add_left _ _
    have hlength := length_toDigits_mono hbytes
    rw [hdigits, List.length_append] at hlength
    exact List.length_eq_zero_iff.mp (by omega)
  intro a b h
  unfold sized at h
  rcases List.append_eq_append_iff.mp h with ⟨k, hdigits, hname⟩ | ⟨k, hdigits, hname⟩
  · rw [hnone hdigits hname, List.nil_append] at hname
    exact String.toList_injective hname
  · rw [hnone hdigits hname, List.nil_append] at hname
    exact String.toList_injective hname.symm

/-! ## Codes of types -/

/-- What a symbol shows of a type: a class stands for all class types and type parameters that have
it at run time, an array for its elements. -/
def coded : Ty → Ty
  | .void => .void
  | .null => .ofClass Builtin.object
  | .primitive p => .primitive p
  | .classType c _ => .ofClass c
  | .parameter name bound =>
    .ofClass ((Ty.parameter name bound).erasedClass?.getD Builtin.object)
  | .array element => .array (coded element)

/-- The grammar of codes. The first letter says how a code goes on. -/
inductive Codes (t : ClassTable) : Ty → List Char → Prop
  | void : Codes t .void ['V']
  | primitive (p : Primitive) : Codes t (.primitive p) [primitiveCode p]
  | ofClass {c : ClassId} {d : ClassDecl} (hd : t.classDecl c = .ok d) :
      Codes t (.ofClass c) ('L' :: sized d.name)
  | array {element : Ty} {code : List Char} (helement : Codes t element code) :
      Codes t (.array element) ('A' :: code)

variable {t : ClassTable}

theorem classCode_eq_ok_iff {c : ClassId} {code : List Char} :
    classCode t c = .ok code ↔ ∃ d, t.classDecl c = .ok d ∧ code = 'L' :: sized d.name := by
  unfold classCode
  rw [bind_eq_ok_iff]
  refine exists_congr fun d ↦ and_congr_right fun _ ↦ ?_
  exact ⟨fun h ↦ (Except.ok.inj h).symm, fun h ↦ congrArg Except.ok h.symm⟩

-- the code that is written for a type is the one that the grammar has for what is shown of it.
theorem codes_of_typeCode {ty : Ty} {code : List Char} (h : typeCode t ty = .ok code) :
    Codes t (coded ty) code := by
  have hclass : ∀ {c code}, classCode t c = .ok code → Codes t (.ofClass c) code := by
    intro c code h
    rcases classCode_eq_ok_iff.mp h with ⟨d, hd, rfl⟩
    exact .ofClass hd
  induction ty using typeCode.induct generalizing code with
  | case1 =>
    cases Except.ok.inj h
    exact .void
  | case2 => exact hclass h
  | case3 p =>
    cases Except.ok.inj h
    exact .primitive p
  | case4 c args => exact hclass h
  | case5 name bound => exact hclass h
  | case6 element ih =>
    rcases bind_eq_ok_iff.mp h with ⟨inner, hinner, h⟩
    cases Except.ok.inj h
    exact .array (ih hinner)

theorem primitiveCode_ne (p : Primitive) :
    primitiveCode p ≠ 'V' ∧ primitiveCode p ≠ 'L' ∧ primitiveCode p ≠ 'A' := by
  cases p <;> decide

theorem primitiveCode_injective {p q : Primitive} (h : primitiveCode p = primitiveCode q) :
    p = q := by
  revert h
  cases p <;> cases q <;> decide

namespace Codes

variable {ty ty' : Ty} {code code' : List Char}

theorem ne_nil (h : Codes t ty code) : code ≠ [] := by
  cases h <;> exact List.cons_ne_nil _ _

theorem eq_cons_of_append (h : Codes t ty code) {c : Char} {inner r s : List Char}
    (heq : c :: inner ++ r = code ++ s) : ∃ rest, code = c :: rest ∧ inner ++ r = rest ++ s := by
  rcases List.exists_cons_of_ne_nil h.ne_nil with ⟨c', rest, rfl⟩
  rcases List.cons.inj heq with ⟨rfl, hrest⟩
  exact ⟨rest, rfl, hrest⟩

-- the first letter says which rule of the grammar a code was made with
theorem eq_void (h : Codes t ty ('V' :: code)) : ty = .void ∧ code = [] := by
  generalize hcode : 'V' :: code = whole at h
  cases h with
  | void => exact ⟨rfl, (List.cons.inj hcode).2⟩
  | primitive q => exact absurd (List.cons.inj hcode).1.symm (primitiveCode_ne q).1
  | ofClass hd => exact absurd (List.cons.inj hcode).1 (by decide)
  | array helement => exact absurd (List.cons.inj hcode).1 (by decide)

theorem eq_primitive {p : Primitive} (h : Codes t ty (primitiveCode p :: code)) :
    ty = .primitive p ∧ code = [] := by
  generalize hcode : primitiveCode p :: code = whole at h
  cases h with
  | void => exact absurd (List.cons.inj hcode).1 (primitiveCode_ne p).1
  | primitive q =>
    rw [primitiveCode_injective (List.cons.inj hcode).1]
    exact ⟨rfl, (List.cons.inj hcode).2⟩
  | ofClass hd => exact absurd (List.cons.inj hcode).1 (primitiveCode_ne p).2.1
  | array helement => exact absurd (List.cons.inj hcode).1 (primitiveCode_ne p).2.2

theorem eq_ofClass (h : Codes t ty ('L' :: code)) :
    ∃ c d, ty = .ofClass c ∧ t.classDecl c = .ok d ∧ code = sized d.name := by
  generalize hcode : 'L' :: code = whole at h
  cases h with
  | void => exact absurd (List.cons.inj hcode).1 (by decide)
  | primitive q => exact absurd (List.cons.inj hcode).1.symm (primitiveCode_ne q).2.1
  | @ofClass c d hd => exact ⟨c, d, rfl, hd, (List.cons.inj hcode).2⟩
  | array helement => exact absurd (List.cons.inj hcode).1 (by decide)

theorem eq_array (h : Codes t ty ('A' :: code)) :
    ∃ element, ty = .array element ∧ Codes t element code := by
  generalize hcode : 'A' :: code = whole at h
  cases h with
  | void => exact absurd (List.cons.inj hcode).1 (by decide)
  | primitive q => exact absurd (List.cons.inj hcode).1.symm (primitiveCode_ne q).2.2
  | ofClass hd => exact absurd (List.cons.inj hcode).1 (by decide)
  | @array element code helement =>
    rw [(List.cons.inj hcode).2]
    exact ⟨element, rfl, helement⟩

/-- No code is the beginning of another, when no class name begins with a digit. -/
theorem append_inj (hnames : NamesDelimited t) (h : Codes t ty code) (h' : Codes t ty' code')
    {r s : List Char} (heq : code ++ r = code' ++ s) : code = code' ∧ r = s := by
  induction h generalizing ty' code' with
  | void =>
    rcases h'.eq_cons_of_append heq with ⟨rest, rfl, hrest⟩
    rw [h'.eq_void.2]
    rw [h'.eq_void.2] at hrest
    exact ⟨rfl, hrest⟩
  | primitive p =>
    rcases h'.eq_cons_of_append heq with ⟨rest, rfl, hrest⟩
    rw [h'.eq_primitive.2]
    rw [h'.eq_primitive.2] at hrest
    exact ⟨rfl, hrest⟩
  | @ofClass c d hd =>
    rcases h'.eq_cons_of_append heq with ⟨rest, rfl, hrest⟩
    rcases h'.eq_ofClass with ⟨c', d', -, hd', rfl⟩
    rcases sized_append_inj (hnames c d hd) (hnames c' d' hd') hrest with ⟨hname, htail⟩
    exact ⟨by rw [hname], htail⟩
  | array helement ih =>
    rcases h'.eq_cons_of_append heq with ⟨rest, rfl, hrest⟩
    rcases h'.eq_array with ⟨element', -, helement'⟩
    rcases ih helement' hrest with ⟨hcode, htail⟩
    exact ⟨by rw [hcode], htail⟩

end Codes

-- a list of codes can be read off their concatenation.
theorem flatten_inj (hnames : NamesDelimited t) {codes codes' : List (List Char)}
    (h : ∀ code ∈ codes, ∃ ty, Codes t ty code)
    (h' : ∀ code ∈ codes', ∃ ty, Codes t ty code) (heq : codes.flatten = codes'.flatten) :
    codes = codes' := by
  induction codes generalizing codes' with
  | nil =>
    cases codes' with
    | nil => rfl
    | cons code' codes' =>
      rcases h' code' List.mem_cons_self with ⟨ty', hcode'⟩
      exact absurd (List.append_eq_nil_iff.mp heq.symm).1 hcode'.ne_nil
  | cons code codes ih =>
    rcases h code List.mem_cons_self with ⟨ty, hcode⟩
    cases codes' with
    | nil => exact absurd (List.append_eq_nil_iff.mp heq).1 hcode.ne_nil
    | cons code' codes' =>
      -- the first codes end at the same place, so the others are left over on both sides
      rcases h' code' List.mem_cons_self with ⟨ty', hcode'⟩
      rcases hcode.append_inj hnames hcode' heq with ⟨hfirst, hrest⟩
      rw [hfirst, ih (fun c hc ↦ h c (List.mem_cons_of_mem _ hc))
        (fun c hc ↦ h' c (List.mem_cons_of_mem _ hc)) hrest]

theorem codes_of_mapM {tys : List Ty} {codes : List (List Char)}
    (h : tys.mapM (typeCode t) = .ok codes) : ∀ code ∈ codes, ∃ ty, Codes t ty code := by
  have hall := mapM_eq_ok_iff.mp h
  induction hall with
  | nil => simp
  | @cons ty code tys codes hcode hrest ih =>
    intro code' hmem
    rcases List.mem_cons.mp hmem with rfl | hmem
    · exact ⟨coded ty, codes_of_typeCode hcode⟩
    · exact ih (mapM_eq_ok_iff.mpr hrest) code' hmem

/-! ## Members -/

theorem procedure_eq_ok_iff {m : MethodDecl} {symbol : String} :
    procedure t m = .ok symbol ↔ ∃ d codes, t.classDecl m.container = .ok d ∧
      m.formals.mapM (typeCode t) = .ok codes ∧
      symbol = procedureText d.name (emittedName m) codes := by
  unfold procedure
  simp only [bind_eq_ok_iff]
  refine ⟨?_, ?_⟩
  · intro h
    rcases h with ⟨d, hd, codes, hcodes, h⟩
    exact ⟨d, codes, hd, hcodes, (Except.ok.inj h).symm⟩
  · intro h
    rcases h with ⟨d, codes, hd, hcodes, rfl⟩
    exact ⟨d, hd, codes, hcodes, rfl⟩

-- the names and the codes can be read off the symbol of a procedure.
theorem procedureText_inj (hnames : NamesDelimited t) {className className' name name' : String}
    {codes codes' : List (List Char)}
    (hclass : ¬ DigitFirst className.toList) (hclass' : ¬ DigitFirst className'.toList)
    (hname : ¬ DigitFirst name.toList) (hname' : ¬ DigitFirst name'.toList)
    (hcodes : ∀ code ∈ codes, ∃ ty, Codes t ty code)
    (hcodes' : ∀ code ∈ codes', ∃ ty, Codes t ty code)
    (h : procedureText className name codes = procedureText className' name' codes') :
    className = className' ∧ name = name' ∧ codes = codes' := by
  have htext := (List.cons.inj (List.cons.inj (String.ofList_injective h)).2).2
  rw [List.append_assoc, List.append_assoc] at htext
  rcases sized_append_inj hclass hclass' htext with ⟨hsameClass, hmember⟩
  rcases sized_append_inj hname hname' hmember with ⟨hsameName, hformals⟩
  exact ⟨hsameClass, hsameName, flatten_inj hnames hcodes hcodes' (List.cons.inj hformals).2⟩

theorem exists_classCode {c : ClassId} (hc : t.Declared c) : ∃ code, classCode t c = .ok code := by
  rcases ClassTable.declared_iff.mp hc with ⟨d, hd⟩
  exact ⟨_, classCode_eq_ok_iff.mpr ⟨d, hd, rfl⟩⟩

-- every known type has a code.
theorem exists_typeCode (ht : t.Consistent) {ty : Ty} (hty : t.Knows ty) :
    ∃ code, typeCode t ty = .ok code := by
  induction ty using typeCode.induct with
  | case1 => exact ⟨['V'], rfl⟩
  | case3 p => exact ⟨[primitiveCode p], rfl⟩
  | case2 | case4 | case5 => exact exists_classCode (declared_of_shownClass ht hty rfl)
  | case6 element ih =>
    rcases ih (hty.of_subset (Ty.parts_element_subset element)) with ⟨code, hcode⟩
    exact ⟨'A' :: code, bind_eq_ok_iff.mpr ⟨code, hcode, rfl⟩⟩

-- every declared procedure whose formals are known has a symbol.
theorem exists_procedure (ht : t.Consistent) {i : MethodId} {m : MethodDecl}
    (hm : t.methodDecl i = .ok m) (hformals : ∀ ty ∈ m.formals, t.Knows ty) :
    ∃ d codes, t.classDecl m.container = .ok d ∧ m.formals.mapM (typeCode t) = .ok codes ∧
      procedure t m = .ok (procedureText d.name (emittedName m) codes) := by
  have hcontainer := ht.methods.container_lt (Arena.get_eq_ok_iff.mp hm)
  rcases ClassTable.declared_iff.mp hcontainer with ⟨d, hd⟩
  rcases exists_mapM_eq_ok fun ty hty ↦ exists_typeCode ht (hformals ty hty) with ⟨codes, hcodes⟩
  exact ⟨d, codes, hd, hcodes, procedure_eq_ok_iff.mpr ⟨d, codes, hd, hcodes, rfl⟩⟩

theorem staticField_eq_ok_iff {f : FieldDecl} {symbol : String} :
    staticField t f = .ok symbol ↔
      ∃ d, t.classDecl f.container = .ok d ∧ symbol = staticFieldText d.name f.name := by
  unfold staticField
  rw [bind_eq_ok_iff]
  refine exists_congr fun d ↦ and_congr_right fun _ ↦ ?_
  exact ⟨fun h ↦ (Except.ok.inj h).symm, fun h ↦ congrArg Except.ok h.symm⟩

theorem exists_staticField (ht : t.Consistent) {i : FieldId} {f : FieldDecl}
    (hf : t.fieldDecl i = .ok f) :
    ∃ d, t.classDecl f.container = .ok d ∧
      staticField t f = .ok (staticFieldText d.name f.name) := by
  have hcontainer := ht.fields.container_lt (Arena.get_eq_ok_iff.mp hf)
  obtain ⟨d, hd⟩ := ClassTable.declared_iff.mp hcontainer
  exact ⟨d, hd, staticField_eq_ok_iff.mpr ⟨d, hd, rfl⟩⟩

end ObjectAbi.Symbol
