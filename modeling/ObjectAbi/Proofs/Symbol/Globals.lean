import ObjectAbi.Proofs.Symbol.Decoding

/-!
# Symbols of globals

Procedures, static fields and dispatch vectors are global in emitted code and share one name space.
The second letter of a symbol says which of the three it names. Among the static fields a symbol
shows the name of the class and the name of the field, and the name of a dispatch vector shows the
name of its class. What stands last in a symbol may begin with digits: the length in front of it is
still the only one that fits.
-/

namespace ObjectAbi.Symbol

/-! ## Kinds of globals -/

inductive GlobalKind
  | procedure
  | staticField
  | dispatchVector
deriving DecidableEq, Repr

/-- The letter after the underscore. -/
def GlobalKind.letter : GlobalKind → Char
  | procedure => 'J'
  | staticField => 'S'
  | dispatchVector => 'V'

theorem GlobalKind.letter_injective : Function.Injective letter := by
  intro kind kind'
  cases kind <;> cases kind' <;> decide

/-- The symbol belongs to a global of the kind, whatever table the global is declared in. -/
inductive NamesGlobal : GlobalKind → String → Prop
  | procedure {t : ClassTable} {m : MethodDecl} {symbol : String}
      (hsymbol : Symbol.procedure t m = .ok symbol) : NamesGlobal .procedure symbol
  | staticField {t : ClassTable} {f : FieldDecl} {symbol : String}
      (hsymbol : Symbol.staticField t f = .ok symbol) : NamesGlobal .staticField symbol
  | dispatchVector (className : String) :
      NamesGlobal .dispatchVector (Symbol.dispatchVector className)

/-! ## Symbols of one kind -/

-- both names can be read off the symbol of a static field; the last one may begin with a digit.
theorem staticFieldText_eq_iff {className className' name name' : String}
    (hclass : ¬ DigitFirst className.toList) (hclass' : ¬ DigitFirst className'.toList) :
    staticFieldText className name = staticFieldText className' name' ↔
      className = className' ∧ name = name' := by
  refine ⟨fun h ↦ ?_, fun h ↦ by rw [h.1, h.2]⟩
  have htext := (List.cons.inj (List.cons.inj (String.ofList_injective h)).2).2
  obtain ⟨hsameClass, hmember⟩ := sized_append_inj hclass hclass' htext
  exact ⟨hsameClass, sized_injective hmember⟩

theorem dispatchVector_injective : Function.Injective dispatchVector := by
  intro name name' h
  have htext := (List.cons.inj (List.cons.inj (String.ofList_injective h)).2).2
  exact sized_injective htext

/-! ## Symbols of all kinds -/

-- every global shows its kind.
theorem NamesGlobal.letter {kind : GlobalKind} {symbol : String} (h : NamesGlobal kind symbol) :
    symbol.toList[1]? = some kind.letter := by
  cases h with
  | procedure hsymbol =>
    obtain ⟨d, codes, -, -, rfl⟩ := procedure_eq_ok_iff.mp hsymbol
    rw [procedureText, String.toList_ofList]
    rfl
  | staticField hsymbol =>
    obtain ⟨d, -, rfl⟩ := staticField_eq_ok_iff.mp hsymbol
    rw [staticFieldText, String.toList_ofList]
    rfl
  | dispatchVector className =>
    rw [Symbol.dispatchVector, String.toList_ofList]
    rfl

theorem NamesGlobal.kind_unique {kind kind' : GlobalKind} {symbol : String}
    (h : NamesGlobal kind symbol) (h' : NamesGlobal kind' symbol) : kind = kind' :=
  GlobalKind.letter_injective (Option.some.inj (h.letter.symm.trans h'.letter))

/-- Static fields have symbols, and share one exactly when their classes have one name and they have
one name themselves, as long as no name of a class begins with a digit. Dispatch vectors share a
symbol only when their classes have one name. Globals of different kinds never share a symbol. -/
theorem global_symbols_apart :
    (∀ t : ClassTable, t.Reached → NamesDelimited t →
      ∀ i j f g, t.fieldDecl i = .ok f → t.fieldDecl j = .ok g →
        ∃ symbol symbol', staticField t f = .ok symbol ∧ staticField t g = .ok symbol' ∧
          (symbol = symbol' ↔
            (∃ c d, t.classDecl f.container = .ok c ∧ t.classDecl g.container = .ok d ∧
              c.name = d.name) ∧ f.name = g.name)) ∧
    Function.Injective dispatchVector ∧
    ∀ kind kind' symbol, NamesGlobal kind symbol → NamesGlobal kind' symbol → kind = kind' := by
  refine ⟨fun t hreached hnames i j f g hf hg ↦ ?_, dispatchVector_injective,
    fun kind kind' symbol h h' ↦ h.kind_unique h'⟩
  obtain ⟨c, hc, hsymbol⟩ := exists_staticField hreached.consistent hf
  obtain ⟨d, hd, hsymbol'⟩ := exists_staticField hreached.consistent hg
  refine ⟨_, _, hsymbol, hsymbol', ?_⟩
  rw [staticFieldText_eq_iff (hnames _ c hc) (hnames _ d hd)]
  refine and_congr_left fun _ ↦ ⟨fun h ↦ ⟨c, d, hc, hd, h⟩, fun h ↦ ?_⟩
  obtain ⟨c', d', hc', hd', hname⟩ := h
  cases hc.symm.trans hc'
  cases hd.symm.trans hd'
  exact hname

/-- Two classes of one name, with static fields whose names are empty or begin with digits. -/
def digitNames : ClassTable := .ofDeclarations
  [.newClass "C" {} none [], .newClass "C" {} none [],
    .field ⟨3⟩ "1é" .int (.ofList [.static]), .field ⟨4⟩ "1é" .long (.ofList [.static]),
    .field ⟨3⟩ "" .int (.ofList [.static])]

-- two fields of one name on classes of one name, and a field without a name
theorem digit_first_fields_apart :
    ∃ f g e symbol symbol', digitNames.fieldDecl ⟨1⟩ = .ok f ∧ digitNames.fieldDecl ⟨2⟩ = .ok g ∧
      digitNames.fieldDecl ⟨3⟩ = .ok e ∧ f.container ≠ g.container ∧
      staticField digitNames f = .ok symbol ∧ staticField digitNames g = .ok symbol ∧
      staticField digitNames e = .ok symbol' ∧ symbol ≠ symbol' ∧
      dispatchVector "C" ≠ symbol := by
  have hnames : NamesDelimited digitNames := by decide +kernel
  have hreached : digitNames.Reached := ClassTable.reached_ofDeclarations _
  obtain ⟨hfields, -, hkinds⟩ := global_symbols_apart
  obtain ⟨symbol, symbol', hf, hg, hsame⟩ := hfields digitNames hreached hnames ⟨1⟩ ⟨2⟩ _ _ rfl rfl
  obtain ⟨first, second, hf', he, hother⟩ := hfields digitNames hreached hnames ⟨1⟩ ⟨3⟩ _ _ rfl rfl
  cases hf.symm.trans hf'
  cases hsame.mpr ⟨⟨_, _, rfl, rfl, rfl⟩, rfl⟩
  refine ⟨_, _, _, symbol, second, rfl, rfl, rfl, by decide, hf, hg, he, fun heq ↦ ?_, fun heq ↦ ?_⟩
  · exact absurd (hother.mp heq).2 (by decide)
  · cases hkinds .dispatchVector .staticField symbol (heq ▸ .dispatchVector "C") (.staticField hf)

end ObjectAbi.Symbol
