import ObjectAbi.Proofs.Symbol.Signature

/-!
# Symbols of constructors

A constructor appears in its symbol under the name `$init`, next to the methods of its class. A
program can declare a method of that name too: nothing keeps the name for constructors. Such a
method and a constructor of one class share a symbol as soon as their formals have the same codes,
and they do so in no other case.
-/

namespace ObjectAbi.Symbol

variable {t : ClassTable}

-- the name that stands for constructors is fit for decoding.
theorem not_digitFirst_emittedName {m : MethodDecl} (hm : m.kind = .constructor) :
    ¬ DigitFirst (emittedName m).toList := by
  rw [emittedName_of_constructor hm]
  decide

/-- A constructor and a method share a symbol exactly when they belong to one class, the method is
named `$init`, and the same is shown of their formals. -/
theorem constructor_shares_symbol_iff (hreached : t.Reached) (hnames : NamesDelimited t)
    (hdistinct : NamesDistinct t)
    {i j : MethodId} {k m : MethodDecl} (hk : t.methodDecl i = .ok k) (hm : t.methodDecl j = .ok m)
    (hkkind : k.kind = .constructor) (hmkind : m.kind = .method)
    (hfirst : ¬ DigitFirst m.name.toList) :
    ((∀ ty ∈ k.formals ++ m.formals, t.Knows ty) →
      ∃ symbol symbol', procedure t k = .ok symbol ∧ procedure t m = .ok symbol') ∧
    ∀ symbol symbol', procedure t k = .ok symbol → procedure t m = .ok symbol' →
      (symbol = symbol' ↔
        k.container = m.container ∧ m.name = "$init" ∧
          k.formals.map coded = m.formals.map coded) := by
  refine ⟨fun hknown ↦ ?_, fun symbol symbol' hsymbol hsymbol' ↦ ?_⟩
  · obtain ⟨d, codes, -, -, hsymbol⟩ := exists_procedure hreached.consistent hk fun ty hty ↦
      hknown ty (List.mem_append_left _ hty)
    obtain ⟨d', codes', -, -, hsymbol'⟩ := exists_procedure hreached.consistent hm fun ty hty ↦
      hknown ty (List.mem_append_right _ hty)
    exact ⟨_, _, hsymbol, hsymbol'⟩
  · have hmname := emittedName_of_method hmkind
    have hmfirst : ¬ DigitFirst (emittedName m).toList := by rwa [hmname]
    rw [procedure_symbol_eq_iff hnames hdistinct (not_digitFirst_emittedName hkkind) hmfirst
      hsymbol hsymbol', emittedName_of_constructor hkkind, hmname, eq_comm (a := "$init")]

namespace InitMethods

def creation : MethodDecl := .ofConstructor ⟨3⟩ {} [.parameter "T" none]

def namedInit : MethodDecl := ⟨"$init", ⟨3⟩, {}, .method, [.ofClass Builtin.object], .void⟩

def namedAngleInit : MethodDecl := ⟨"<init>", ⟨3⟩, {}, .method, [.ofClass Builtin.object], .void⟩

/-- A class with a constructor and two methods, named as the symbol and the declaration of a
constructor are. -/
def table : ClassTable := .ofDeclarations <|
  .newClass "C" {} none ["T"] :: .constructor ⟨3⟩ {} creation.formals ::
    [namedInit, namedAngleInit].map fun m ↦
      .method m.container m.name m.modifiers m.formals m.result

end InitMethods

open InitMethods in
-- the name in the declaration of a constructor is harmless, the name in its symbol is not
theorem init_method_takes_symbol_of_constructor :
    procedure table creation = procedure table namedInit ∧
      procedure table creation ≠ procedure table namedAngleInit := by
  have hreached : table.Reached := ClassTable.reached_ofDeclarations _
  have hnames : NamesDelimited table := by decide +kernel
  have hdistinct : NamesDistinct table := by decide +kernel
  have hcreation : table.methodDecl ⟨0⟩ = .ok creation := rfl
  have hsame := constructor_shares_symbol_iff hreached hnames hdistinct hcreation
    (show table.methodDecl ⟨1⟩ = .ok namedInit from rfl) rfl rfl (by decide +kernel)
  have hother := constructor_shares_symbol_iff hreached hnames hdistinct hcreation
    (show table.methodDecl ⟨2⟩ = .ok namedAngleInit from rfl) rfl rfl (by decide +kernel)
  obtain ⟨symbol, symbol', hsymbol, hsymbol'⟩ := hsame.1 (by decide +kernel)
  obtain ⟨-, symbol'', -, hsymbol''⟩ := hother.1 (by decide +kernel)
  have hshare : symbol = symbol' := (hsame.2 symbol symbol' hsymbol hsymbol').mpr ⟨rfl, rfl, rfl⟩
  have hpart : symbol ≠ symbol'' := fun heq ↦
    absurd ((hother.2 symbol symbol'' hsymbol hsymbol'').mp heq).2.1 (by decide)
  rw [hsymbol, hsymbol', hsymbol'', hshare]
  exact ⟨rfl, fun heq ↦ hpart (hshare.trans (Except.ok.inj heq))⟩

open InitMethods in
theorem init_method_refutes_apart_symbols :
    ¬ ∀ (t : ClassTable) (i j : MethodId) (k m : MethodDecl), t.Reached →
      NamesDelimited t → NamesDistinct t →
      t.methodDecl i = .ok k → t.methodDecl j = .ok m → k.kind = .constructor →
      m.kind = .method → ¬ DigitFirst m.name.toList →
      ∀ symbol symbol', procedure t k = .ok symbol → procedure t m = .ok symbol' →
        symbol ≠ symbol' := by
  intro hapart
  have hself := hapart table ⟨0⟩ ⟨1⟩ creation namedInit (ClassTable.reached_ofDeclarations _)
    (by decide +kernel) (by decide +kernel) rfl rfl rfl rfl (by decide +kernel)
    "_J1C5$init_L16jolt.lang.Object" "_J1C5$init_L16jolt.lang.Object"
    (by decide +kernel) (by decide +kernel)
  exact hself rfl

end ObjectAbi.Symbol
