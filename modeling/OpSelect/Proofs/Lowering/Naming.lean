import OpSelect.Proofs.Lowering.Label
import OpSelect.Proofs.Program.Spelling
import OpSelect.Proofs.Token.Chunk

/-!
Names that say what they stand for. Where nothing is declared, a name that begins with a dollar
sign is a virtual register, one that is spelled like a machine register is that register, and any
other is a label. `AsSpelled` says that all names of a table lead to such symbols, and lowering
keeps it so.
-/

namespace OpSelect

/-- The class that a virtual register's name asks for. -/
def registerClass? (name : String) : Option ValueClass :=
  (name.toList.drop 1).head?.bind ValueClass.ofLetter?

/-- The symbol that a name is spelled for. -/
def Symbol.spelled (name : String) : Symbol :=
  if name.toList.head? = some '$' then ⟨name, (registerClass? name).getD .integer, .var⟩
  else match machineRegister? name with
    | some (cls, index) => ⟨cls.machineRegister index, cls, .machineRegister index⟩
    | none => ⟨name, .integer, .address⟩

namespace ValueClass

variable (cls : ValueClass) (index : Nat)

theorem ofLetter?_letter : ofLetter? cls.letter = some cls := by
  cases cls <;> rfl

theorem machineRegister?_machineRegister (small : index < 256) :
    machineRegister? (cls.machineRegister index) = some (cls, index) := by
  have isNumeral : (Nat.toDigits 10 index).all Char.isDigit = true :=
    List.all_eq_true.mpr fun c mem => Nat.isDigit_of_mem_toDigits (by decide) (by decide) mem
  have nonempty : (!(Nat.toDigits 10 index).isEmpty) = true := by
    simp [Nat.toDigits_ne_nil]
  unfold machineRegister?
  rw [cls.machineRegister_toList]
  dsimp only
  rw [ofLetter?_letter, numeralValue_toDigits]
  exact if_pos ⟨nonempty, isNumeral, small⟩

theorem head_machineRegister : (cls.machineRegister index).toList.head? ≠ some '$' := by
  rw [cls.machineRegister_toList]
  cases cls <;> simp [letter]

theorem registerClass?_virtualRegister : registerClass? (cls.virtualRegister index) = some cls := by
  unfold registerClass?
  rw [cls.virtualRegister_toList, cls.machineRegister_toList]
  exact cls.ofLetter?_letter

end ValueClass

theorem lt_of_machineRegister? {name : String} {cls : ValueClass} {index : Nat}
    (h : machineRegister? name = some (cls, index)) : index < 256 := by
  unfold machineRegister? at h
  split at h
  · cases h
  · obtain ⟨cls, _, h⟩ := Option.bind_eq_some_iff.mp h
    dsimp only at h
    split at h
    · rename_i spelled
      cases h
      exact spelled.2.2
    · cases h

namespace Symbol

variable {name : String}

theorem spelled_register {cls : ValueClass} (sigil : name.toList.head? = some '$')
    (ofClass : registerClass? name = some cls) : spelled name = ⟨name, cls, .var⟩ := by
  rw [spelled, if_pos sigil, ofClass]
  rfl

/-- The name is spelled for a label. -/
def SpellsLabel (name : String) : Prop := spelled name = ⟨name, .integer, .address⟩

theorem spellsLabel (sigil : name.toList.head? ≠ some '$')
    (ordinary : machineRegister? name = none) : SpellsLabel name := by
  rw [SpellsLabel, spelled, if_neg sigil, ordinary]

theorem spelled_machineRegister (cls : ValueClass) {index : Nat} (small : index < 256) :
    spelled (cls.machineRegister index) =
      ⟨cls.machineRegister index, cls, .machineRegister index⟩ := by
  rw [spelled, if_neg (cls.head_machineRegister index),
    cls.machineRegister?_machineRegister index small]

theorem spelled_kind (name : String) : (spelled name).kind ≠ .constant := by
  unfold spelled
  split
  · simp
  · split <;> simp

theorem spelled_nameFits (name : String) : (spelled name).NameFits := by
  intro index kind
  unfold spelled at kind ⊢
  by_cases sigil : name.toList.head? = some '$'
  · rw [if_pos sigil] at kind
    cases kind
  · rw [if_neg sigil] at kind ⊢
    cases found : machineRegister? name with
    | none =>
        rw [found] at kind
        cases kind
    | some register =>
        rw [found] at kind
        cases kind
        rfl

end Symbol

namespace SymbolTable

/-- Every name leads to the symbol that it is spelled for. -/
structure AsSpelled (t : SymbolTable) : Prop where
  wf : t.WellFormed
  spelled : ∀ entry ∈ t.names, t.get entry.2 = .spelled entry.1

variable {t u : SymbolTable} {symbol : Symbol} {name : String} {id : SymbolId}

theorem asSpelled_empty : ({} : SymbolTable).AsSpelled :=
  ⟨wellFormed_empty, fun _ mem => absurd mem List.not_mem_nil⟩

namespace AsSpelled

theorem get (h : t.AsSpelled) (leads : t.lookup name = some id) : t.get id = .spelled name :=
  h.spelled _ (mem_of_lookup leads)

/-- Constants, keys and definitions of labels bring no names. -/
theorem grows (h : t.AsSpelled) (grown : t.Grows u) (names : u.names = t.names) :
    u.AsSpelled := by
  refine ⟨h.wf.grows grown, fun entry mem => ?_⟩
  rw [names] at mem
  rw [grown.get (h.wf.named _ mem).1]
  exact h.spelled _ mem

theorem pushNamed (h : t.AsSpelled) (fresh : t.lookup symbol.name = none)
    (fits : .spelled symbol.name = symbol) : (t.pushNamed symbol).1.AsSpelled := by
  have kind : symbol.kind ≠ .constant := fits ▸ Symbol.spelled_kind _
  have grown := grows_pushNamed fresh kind (fits ▸ Symbol.spelled_nameFits _)
  refine ⟨h.wf.grows grown, fun entry mem => ?_⟩
  rw [pushNamed_eq] at mem
  cases List.mem_append.mp mem with
  | inl mem =>
      rw [grown.get (h.wf.named _ mem).1]
      exact h.spelled _ mem
  | inr mem =>
      rw [List.mem_singleton.mp mem, fits]
      exact get_pushNamed

theorem mention (h : t.AsSpelled) (fits : .spelled symbol.name = symbol)
    (mentioned : t.mention symbol = .ok (u, id)) : u.AsSpelled := by
  unfold SymbolTable.mention at mentioned
  cases found : t.lookup symbol.name with
  | some other =>
      rw [found] at mentioned
      obtain ⟨_, _, same⟩ := map_eq_ok.mp mentioned
      cases same
      exact h
  | none =>
      rw [found] at mentioned
      cases mentioned
      exact h.pushNamed found fits

theorem address (h : t.AsSpelled) (fits : Symbol.SpellsLabel name)
    (mentioned : t.address name = .ok (u, id)) : u.AsSpelled := by
  rcases address_cases mentioned with ⟨rfl, _⟩ | ⟨fresh, pushed⟩
  · exact h
  · have added : (t.pushNamed ⟨name, .integer, .address⟩).1.AsSpelled := h.pushNamed fresh fits
    rwa [pushed] at added

theorem constant (h : t.AsSpelled) (text : String) (cls : ValueClass) :
    (t.constant text cls).1.AsSpelled := by
  refine h.grows (t.grows_constant text cls) ?_
  rcases constant_cases t text cls with ⟨_, _, eq⟩ | ⟨_, eq⟩
  · rw [eq]
  · rw [eq]

theorem collapse (h : t.AsSpelled) (chain : KeyChain) : (chain.collapse t).1.AsSpelled := by
  refine h.grows (grows_collapse chain t) ?_
  unfold KeyChain.collapse
  cases chain.rest <;> rfl

theorem temporaries (h : t.AsSpelled) (supply : NameSupply) (cls : ValueClass) (count : Nat) :
    (t.temporaries supply cls count).1.AsSpelled := by
  induction count generalizing t supply with
  | zero => exact h
  | succ count ih =>
      refine ih (h.pushNamed (supply.lookup_nextNumber cls t) ?_) _
      refine Symbol.spelled_register ?_ (cls.registerClass?_virtualRegister _)
      rw [cls.virtualRegister_toList]
      rfl

theorem placeLabel (h : t.AsSpelled) (fits : Symbol.SpellsLabel name)
    (placed : t.placeLabel name = (u, .ok id)) : u.AsSpelled := by
  unfold SymbolTable.placeLabel at placed
  split at placed
  · cases placed
  · rename_i v other found
    split at placed
    · cases placed
    · rename_i undefined
      cases placed
      have spelled := h.address fits found
      obtain ⟨_, leads, kind⟩ := address_ok found
      refine spelled.grows (.single (.label _ ⟨spelled.wf.lt_of_lookup leads, kind⟩ ?_)) rfl
      simpa [isDefinedLabel] using undefined

end AsSpelled
end SymbolTable

namespace Selector

variable {s t : Selector} {mnemonic : String} {context : Context} {slots : List Slot} {first : Nat}

theorem aggregateType_asSpelled {name : String} {id : SymbolId} (h : s.symbols.AsSpelled)
    (found : s.aggregateType name = (t, .ok id)) : t.symbols.AsSpelled := by
  obtain ⟨_, _, rfl, _⟩ := aggregateType_eq_ok.mp found
  exact h.constant _ _

theorem prepareSlot_asSpelled {operation i : Instruction} {slot : Slot} {temp : SymbolId}
    (h : s.symbols.AsSpelled) (prepared : s.prepareSlot operation slot temp = (t, .ok i)) :
    t.symbols.AsSpelled := by
  rcases prepareSlot_eq_ok.mp prepared with ⟨_, rfl, _⟩ | ⟨_, _, found, _⟩
  · exact h
  · exact aggregateType_asSpelled h found

theorem buildGroup_asSpelled {pairs : List (Slot × SymbolId)} {group : List Instruction}
    (h : s.symbols.AsSpelled) (built : s.buildGroup mnemonic pairs = (t, .ok group)) :
    t.symbols.AsSpelled := by
  cases pairs with
  | nil =>
      cases built
      exact h
  | cons first others =>
      obtain ⟨_, _, _, _, _, prepared, _⟩ := buildGroup_ok built
      exact prepareSlot_asSpelled h prepared

theorem resolve_asSpelled (h : s.symbols.AsSpelled)
    (answer : s.resolve mnemonic context = (t, .ok first)) : t.symbols.AsSpelled := by
  rcases resolve_ok answer with ⟨_, expanded⟩ | ⟨_, i, _, rfl⟩
  · obtain ⟨_, after, group, built, rfl⟩ := expand_ok expanded
    exact buildGroup_asSpelled (t := after) (h.temporaries _ _ _) built
  · exact h

theorem resolveSlots_asSpelled (h : s.symbols.AsSpelled)
    (answer : s.resolveSlots mnemonic slots = (t, .ok first)) : t.symbols.AsSpelled := by
  obtain ⟨_, _, resolved⟩ := resolveSlots_eq_ok.mp answer
  exact resolve_asSpelled h resolved

theorem Indexes.asSpelled {ids : List SymbolId} {answer : Selector × Except Fault Nat}
    (indexes : s.Indexes ids answer) (h : s.symbols.AsSpelled) (ok : answer = (t, .ok first)) :
    t.symbols.AsSpelled := by
  cases indexes with
  | element mnemonic slots => exact resolveSlots_asSpelled h ok
  | character mnemonic slots =>
      have first : s.one.1.symbols.AsSpelled := h.constant _ _
      exact resolveSlots_asSpelled first ok
  | refused error => cases ok

theorem label_asSpelled {name : String} (h : s.symbols.AsSpelled)
    (fits : Symbol.SpellsLabel name)
    (answer : s.label name = (t, .ok first)) : t.symbols.AsSpelled := by
  unfold label at answer
  split at answer
  · cases answer
  · rename_i placed
    cases answer
    exact h.placeLabel fits placed

end Selector

/-- A register is written with a dollar sign, and a word without one. -/
def TokenKind.SigilFits : TokenKind → Prop
  | .register name => name.toList.head? = some '$'
  | .word name => name.toList.head? ≠ some '$'
  | _ => True

/-- The tokens of the phrase have the sigils of what they are. -/
def SigilsFit (kinds : List TokenKind) : Prop := ∀ kind ∈ kinds, kind.SigilFits

theorem sigilsFit_append {first second : List TokenKind} :
    SigilsFit (first ++ second) ↔ SigilsFit first ∧ SigilsFit second :=
  List.forall_mem_append

/-- The labels that a statement defines, jumps to or takes the address of. -/
def Statement.labels : Statement → List String
  | .openSub name | .label name | .jump name | .call name | .branch _ _ name
  | .assign _ (.addr name) => [name]
  | .closeSub | .declare .. | .instruction .. | .assign .. => []

/-- A statement that declares nothing and whose labels are spelled so. -/
structure Statement.NamesFit (s : Statement) : Prop where
  sigils : SigilsFit s.spell
  labels : ∀ name ∈ s.labels, machineRegister? name = none
  undeclared : ∀ type name, s ≠ .declare type name

namespace Statement

variable {f : Form}

theorem spell_operand (s : Statement) (isForm : s.form = some f) {o : Located Operand}
    (mem : o ∈ f.operands) : o.node.spell ⊆ s.spell := by
  cases s with
  | openSub | closeSub | declare | label => cases isForm
  | jump | call =>
      cases isForm
      cases mem
  | instruction mnemonic operands =>
      cases isForm
      exact fun kind isKind => .tail _ (mem_intercalate (List.mem_map_of_mem mem) isKind)
  | branch negated condition name =>
      cases condition <;> cases isForm <;>
        grind [Condition.form, spell, Condition.spell]
  | assign target value =>
      cases value <;> cases isForm <;> grind [spell, Value.spell]

theorem spell_target (s : Statement) (isForm : s.form = some f) {name : String}
    (mem : name ∈ f.targets) : .word name ∈ s.spell ∧ name ∈ s.labels := by
  cases s with
  | openSub | closeSub | declare | label => cases isForm
  | instruction =>
      cases isForm
      cases mem
  | jump | call =>
      cases isForm
      rw [List.mem_singleton.mp mem]
      simp [spell, labels]
  | branch negated condition name =>
      cases condition <;> cases isForm <;> grind [Condition.form, spell, labels]
  | assign target value =>
      cases value <;> cases isForm <;> grind [spell, Value.spell, labels]

end Statement

namespace Lowering

variable {σ τ υ : Lowering} {id : SymbolId} {span : Span} {s : Located Statement}
  {asked : Option Request} {conditions others : List Prop}

/-- Under these conditions all names are kept as they are spelled. -/
def KeepsSpelling (conditions : List Prop) (σ τ : Lowering) : Prop :=
  (∀ p ∈ conditions, p) → σ.selector.symbols.AsSpelled → τ.selector.symbols.AsSpelled

theorem KeepsSpelling.trans (h : KeepsSpelling conditions σ τ) (k : KeepsSpelling others τ υ) :
    KeepsSpelling (conditions ++ others) σ υ := by
  intro all spelled
  obtain ⟨first, second⟩ := List.forall_mem_append.mp all
  exact k second (h first spelled)

theorem keepsSpelling_same (same : τ.selector = σ.selector) : KeepsSpelling [] σ τ := by
  intro _ spelled
  rw [same]
  exact spelled

theorem constant_asSpelled {text : String} {cls : ValueClass}
    (h : (intern (·.constant text cls)).run σ = .ok (id, τ))
    (spelled : σ.selector.symbols.AsSpelled) : τ.selector.symbols.AsSpelled := by
  have kept := spelled.constant text cls
  rwa [(intern_ok h).1] at kept

theorem labelRef_asSpelled {name : String} (h : (labelRef name span).run σ = .ok (id, τ))
    (fits : Symbol.SpellsLabel name) (spelled : σ.selector.symbols.AsSpelled) :
    τ.selector.symbols.AsSpelled := by
  obtain ⟨table, found, rfl⟩ := labelRef_eq h
  rw [selector_note]
  exact spelled.address fits found

theorem Finds.asSpelled {a : Atom} (h : Finds σ span a id τ) (sigils : SigilsFit a.spell)
    (spelled : σ.selector.symbols.AsSpelled) : τ.selector.symbols.AsSpelled := by
  cases h with
  | constant literal interned => exact constant_asSpelled interned spelled
  | register ofClass found =>
      refine spelled.mention ?_ found
      exact Symbol.spelled_register (sigils _ List.mem_cons_self) ofClass
  | declared leads value => exact spelled
  | machine isRegister found =>
      refine spelled.mention ?_ found
      exact Symbol.spelled_machineRegister _ (lt_of_machineRegister? isRegister)
  | label ordinary referred =>
      exact labelRef_asSpelled referred
        (Symbol.spellsLabel (sigils _ List.mem_cons_self) ordinary) spelled

/-- Names are kept where each atom has its sigil, each target is spelled for a label and nothing is
declared. -/
theorem lowersStatements_spelled :
    LowersStatements (fun a => [SigilsFit a.node.spell]) (fun _ name => [Symbol.SpellsLabel name])
      (fun _ => [False]) KeepsSpelling where
  refl _ := keepsSpelling_same rfl
  trans := .trans
  atom ran fits := (atom_finds ran).asSpelled (fits _ List.mem_cons_self)
  collapse _ chain _ spelled := spelled.collapse chain
  constant interned _ := constant_asSpelled interned
  labelRef ran fits := labelRef_asSpelled ran (fits _ List.mem_cons_self)
  declare _ fits := (fits _ List.mem_cons_self).elim
  same same _ := keepsSpelling_same same

theorem weigh_sigils {o : Located Operand} (h : SigilsFit o.node.spell) :
    ∀ p ∈ weigh (fun a => [SigilsFit a.node.spell]) o, p := by
  obtain ⟨base, keys⟩ := sigilsFit_append.mp h
  refine List.forall_mem_cons.mpr ⟨base, ?_⟩
  intro p mem
  obtain ⟨key, isKey, mem⟩ := List.mem_flatMap.mp mem
  rw [List.mem_singleton.mp mem]
  intro kind isKind
  exact keys kind (List.mem_flatMap.mpr ⟨key, isKey, by simp [isKind]⟩)

theorem conditions_hold (fits : s.node.NamesFit) :
    ∀ p ∈ weighStatement (fun a => [SigilsFit a.node.spell])
      (fun _ name => [Symbol.SpellsLabel name]) (fun _ => [False]) s, p := by
  cases isForm : s.node.form with
  | some f =>
      rw [weighStatement_form isForm]
      refine List.forall_mem_append.mpr ⟨fun p mem => ?_, fun p mem => ?_⟩
      · obtain ⟨o, isOperand, mem⟩ := List.mem_flatMap.mp mem
        have part := s.node.spell_operand isForm isOperand
        exact weigh_sigils (fun kind isKind => fits.sigils kind (part isKind)) p mem
      · obtain ⟨name, isTarget, mem⟩ := List.mem_flatMap.mp mem
        obtain ⟨isWord, isLabel⟩ := s.node.spell_target isForm isTarget
        rw [List.mem_singleton.mp mem]
        exact Symbol.spellsLabel (fits.sigils _ isWord) (fits.labels name isLabel)
  | none =>
      obtain ⟨node, span⟩ := s
      cases node with
      | openSub | closeSub | label => exact fun _ mem => absurd mem List.not_mem_nil
      | declare type name => exact absurd rfl (fits.undeclared type name)
      | instruction | jump | call | branch => cases isForm
      | assign target value =>
          cases value with
          | new type => exact weigh_sigils (sigilsFit_append.mp fits.sigils).1
          | operand | binary | unary | addr | defined | clone => cases isForm

theorem Asks.asSpelled (h : Asks s σ asked τ) (fits : s.node.NamesFit)
    (spelled : σ.selector.symbols.AsSpelled) : τ.selector.symbols.AsSpelled :=
  lowersStatements_spelled.asks h (conditions_hold fits) spelled

/-- The label of a request is one of its statement. -/
theorem Asks.label_spelled {name : String} (h : Asks s σ (some (.label name)) τ) :
    .word name ∈ s.node.spell ∧ name ∈ s.node.labels := by
  cases h with
  | label isLabel =>
      rcases isLabel with isLabel | isLabel <;>
        rw [isLabel] <;> simp [Statement.labels, Statement.spell]

theorem statement_asSpelled (fits : s.node.NamesFit) (spelled : σ.selector.symbols.AsSpelled)
    (h : (statement s).run σ = .ok ((), τ)) : τ.selector.symbols.AsSpelled := by
  rcases statement_ok h with requested | ⟨r, reached, selector, first, requested, answer, rfl⟩
  · exact (request_asks requested).asSpelled fits spelled
  · have asks := request_asks requested
    have spelled₁ := asks.asSpelled fits spelled
    cases r with
    | operation mnemonic context => exact Selector.resolve_asSpelled spelled₁ answer
    | fetch dest container key => exact (Selector.indexes_fetch ..).asSpelled spelled₁ answer
    | store container key value => exact (Selector.indexes_store ..).asSpelled spelled₁ answer
    | label name =>
        obtain ⟨isWord, isLabel⟩ := asks.label_spelled
        exact Selector.label_asSpelled spelled₁
          (Symbol.spellsLabel (fits.sigils _ isWord) (fits.labels name isLabel)) answer

/-- Statements that fit keep all names as they are spelled. -/
theorem run_asSpelled {statements : List (Located Statement)}
    (fit : ∀ s ∈ statements, s.node.NamesFit) (spelled : σ.selector.symbols.AsSpelled)
    (h : (statements.forM statement).run σ = .ok ((), τ)) : τ.selector.symbols.AsSpelled := by
  refine run_keeps (P := fun _ τ => τ.selector.symbols.AsSpelled) spelled ?_ h
  exact fun s mem _ _ _ before ran => statement_asSpelled (fit s mem) before ran

end Lowering
end OpSelect
