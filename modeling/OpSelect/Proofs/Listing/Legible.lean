import OpSelect.Proofs.Listing.Text
import OpSelect.Proofs.Lowering.Arity

/-!
What a compiled text shows in its listing. The operands of its instructions come from the atoms of
the text, from the types of the catalog and from temporaries, and all of these can be read back.
So every instruction of a text without declarations is read back as a line.
-/

namespace OpSelect

section Tokens

/-- A token that the reader of a listing would take for the same. -/
structure TokenKind.Legible (kind : TokenKind) : Prop where
  read : kind.IsRead ∨ ∃ m, kind = .mark m
  printable : ∀ value, kind = .string value → ∀ c ∈ value.toList, isPrintable c = true

theorem mem_canonicalFrom {seen kinds : List TokenKind} {kind : TokenKind}
    (h : kind ∈ canonicalFrom seen kinds) : kind ∈ kinds ∨ ∃ m, kind = .mark m := by
  fun_induction canonicalFrom seen kinds with
  | case1 => exact .inl h
  | case2 seen rest ih => exact (ih h).imp_left (List.mem_cons_of_mem _)
  | case3 seen rest ih =>
      rcases List.mem_cons.mp h with rfl | h
      · exact .inr ⟨_, rfl⟩
      · rcases List.mem_cons.mp h with rfl | h
        · exact .inr ⟨_, rfl⟩
        · exact (ih h).imp_left (List.mem_cons_of_mem _)
  | case4 seen rest follows ih =>
      rcases List.mem_cons.mp h with rfl | h
      · exact .inr ⟨_, rfl⟩
      · exact (ih h).imp_left (List.mem_cons_of_mem _)
  | case5 seen rest follows ih =>
      rcases List.mem_cons.mp h with rfl | h
      · exact .inl (by simp)
      · exact (ih h).imp_left fun mem => List.mem_cons_of_mem _ (List.mem_cons_of_mem _ mem)
  | case6 seen kind' rest _ _ _ ih =>
      rcases List.mem_cons.mp h with rfl | h
      · exact .inl List.mem_cons_self
      · exact (ih h).imp_left (List.mem_cons_of_mem _)

/-- The statements of a text are spelled with its tokens, but for some marks. -/
theorem mem_tokens_of_parse {source : String} {tokens : List Token}
    {statements : List (Located Statement)} (lexed : tokenize source = .ok tokens)
    (parsed : parse source = .ok statements) :
    ∀ s ∈ statements, ∀ kind ∈ s.node.spell,
      kind ∈ tokens.map Token.kind ∨ ∃ m, kind = .mark m := by
  intro s mem kind isKind
  unfold parse at parsed
  rw [lexed] at parsed
  obtain ⟨good, rfl⟩ := parseTokens_eq_ok.mp parsed
  have isCanonical : kind ∈ canonical (tokens.map Token.kind) := by
    rw [← Reading.ofTokens_spelled (isRead_of_tokenize lexed) good]
    exact List.mem_flatMap.mpr ⟨s, mem, isKind⟩
  exact mem_canonicalFrom isCanonical

/-- The tokens that the statements of a text are spelled with. -/
theorem legible_of_parse {source : String} {tokens : List Token}
    {statements : List (Located Statement)} (lexed : tokenize source = .ok tokens)
    (parsed : parse source = .ok statements)
    (printable : ∀ t ∈ tokens, ∀ value, t.kind = .string value →
      ∀ c ∈ value.toList, isPrintable c = true) :
    ∀ s ∈ statements, ∀ kind ∈ s.node.spell, kind.Legible := by
  intro s mem kind isKind
  rcases mem_tokens_of_parse lexed parsed s mem kind isKind with isToken | isMark
  · refine ⟨.inl (isRead_of_tokenize lexed kind isToken), ?_⟩
    obtain ⟨t, mem, rfl⟩ := List.mem_map.mp isToken
    exact printable t mem
  · refine ⟨.inr isMark, ?_⟩
    obtain ⟨m, rfl⟩ := isMark
    intro value same
    cases same

namespace TokenKind.Legible

theorem isRead {kind : TokenKind} (h : kind.Legible) (unmarked : ∀ m, kind ≠ .mark m) :
    kind.IsRead := by
  refine h.read.resolve_right ?_
  rintro ⟨m, same⟩
  exact unmarked m same

theorem isName {name : String} (h : (TokenKind.word name).Legible) : IsName name := by
  have read := h.isRead (by simp)
  refine ⟨?_, fun m => read.ne_mark m⟩
  obtain ⟨p, rest, text, takes, denotes⟩ := read
  cases denotes
  rw [String.toList_ofList]
  exact takes.mem

theorem fits {n : Nat} (h : (TokenKind.integer n).Legible) : n ≤ maxInteger := by
  obtain ⟨p, rest, text, takes, denotes⟩ := h.isRead (by simp)
  cases denotes
  assumption

theorem isFloat {text : String} (h : (TokenKind.float text).Legible) :
    text.toList ∈ Pattern.language .float := by
  obtain ⟨p, rest, text, takes, denotes⟩ := h.isRead (by simp)
  cases denotes
  rw [String.toList_ofList]
  exact takes.mem

theorem isRegister {name : String} (h : (TokenKind.register name).Legible) :
    name.toList ∈ Pattern.language .register := by
  obtain ⟨p, rest, text, takes, denotes⟩ := h.isRead (by simp)
  cases denotes
  rw [String.toList_ofList]
  exact takes.mem

end TokenKind.Legible

/-- A register has a sigil and a class. -/
theorem register_of_mem {name : String} (h : name.toList ∈ Pattern.language .register) :
    name.toList.head? = some '$' ∧ ∃ cls, registerClass? name = some cls := by
  obtain ⟨_, ⟨c, isSigil, rfl⟩, _, rest, spelled⟩ := Language.mem_mul.mp h
  obtain ⟨_, ⟨d, isLetter, rfl⟩, digits, _, rfl⟩ := Language.mem_mul.mp rest
  obtain rfl := beq_iff_eq.mp isSigil
  unfold registerClass?
  rw [← spelled]
  refine ⟨rfl, ?_⟩
  simp only [isRegisterLetter, Bool.or_eq_true, beq_iff_eq] at isLetter
  rcases isLetter with ((rfl | rfl) | rfl) | rfl
  · exact ⟨.integer, rfl⟩
  · exact ⟨.float, rfl⟩
  · exact ⟨.string, rfl⟩
  · exact ⟨.aggregate, rfl⟩

theorem IsName.sigil {name : String} (h : IsName name) : name.toList.head? ≠ some '$' := by
  obtain ⟨_, ⟨c, isStart, rfl⟩, rest, _, spelled⟩ := Language.mem_mul.mp h.word
  rw [← spelled]
  intro same
  cases same
  cases isStart

/-- Legible tokens have the sigils of what they are. -/
theorem TokenKind.Legible.sigilFits {kind : TokenKind} (h : kind.Legible) : kind.SigilFits := by
  cases kind with
  | register name => exact (register_of_mem h.isRegister).1
  | word name => exact h.isName.sigil
  | mark | newline | directive | string | float | integer => trivial

end Tokens

section Symbols

variable {t : SymbolTable} {labels : List String} {id : SymbolId}

/-- A unit in which all names are spelled for what they lead to, and all labels are known. -/
structure SymbolTable.Shown (t : SymbolTable) (labels : List String) : Prop where
  spelled : t.AsSpelled
  resolved : ∀ name id, t.labelId name = some id → name ∈ labels

theorem BuiltIn.types_fit : ∀ entry ∈ Catalog.builtIn.types, entry.2.natAbs ≤ maxInteger := by
  decide +kernel

theorem readAs_type {name : String} {number : Int}
    (known : Catalog.builtIn.typeId name = some number)
    (symbol : t.get id = ⟨toString number, .integer, .constant⟩) :
    ∃ a, (t.get id).ReadAs labels a := by
  obtain ⟨entry, found, rfl⟩ := Option.map_eq_some_iff.mp known
  rw [symbol]
  exact ⟨_, .integer _ (BuiltIn.types_fit entry (List.mem_of_find?_eq_some found))⟩

theorem readAs_one (symbol : t.get id = ⟨"1", .integer, .constant⟩) :
    ∃ a, (t.get id).ReadAs labels a := by
  rw [symbol]
  exact ⟨_, .integer 1 (by decide)⟩

theorem readAs_temporary (h : t.IsTemporary id) : ∃ a, (t.get id).ReadAs labels a := by
  obtain ⟨n, symbol⟩ := h
  rw [symbol]
  refine ⟨_, .register _ .aggregate ?_ (ValueClass.registerClass?_virtualRegister _ n)⟩
  rw [ValueClass.virtualRegister_toList, ValueClass.machineRegister_toList]
  refine Language.mem_mul.mpr ⟨['$'], ⟨'$', rfl, rfl⟩, _, ?_, rfl⟩
  refine Language.mem_mul.mpr ⟨['P'], ⟨'P', rfl, rfl⟩, _, ?_, rfl⟩
  exact mem_someOf Nat.toDigits_ne_nil fun c mem =>
    Nat.isDigit_of_mem_toDigits (by decide) (by decide) mem

namespace SymbolTable.Shown

theorem label (h : t.Shown labels) {name : String} (legible : (TokenKind.word name).Legible)
    (leads : t.labelId name = some id) : (t.get id).ReadAs labels (.word name) := by
  obtain ⟨found, address⟩ := labelId_eq_some.mp leads
  have symbol := h.spelled.get found
  rw [symbol] at address
  have sigil := legible.isName.sigil
  cases register : machineRegister? name with
  | some other =>
      rw [Symbol.spelled, if_neg sigil, register] at address
      cases address
  | none =>
      rw [symbol, Symbol.spellsLabel sigil register]
      exact .label name (h.resolved name id leads) ⟨legible.isName, register⟩

theorem machine (h : t.Shown labels) {cls : ValueClass} {index : Nat} (small : index < 256)
    (leads : t.lookup (cls.machineRegister index) = some id) :
    ∃ a, (t.get id).ReadAs labels a := by
  rw [h.spelled.get leads, Symbol.spelled_machineRegister cls small]
  exact ⟨_, .machine cls index small⟩

/-- Every atom is shown so that it can be read back. -/
theorem atom (h : t.Shown labels) {a : Atom} (stands : a.StandsFor .builtIn t id)
    (legible : ∀ kind ∈ a.spell, kind.Legible) : ∃ b, (t.get id).ReadAs labels b := by
  cases stands with
  | @integer value _ symbol =>
      have kind : TokenKind.integer value.natAbs ∈ (Atom.integer value).spell := by
        by_cases negative : value < 0 <;> simp [Atom.spell, negative]
      rw [symbol]
      exact ⟨_, .integer value (legible _ kind).fits⟩
  | @float text _ symbol =>
      rw [symbol]
      by_cases signed : ∃ magnitude, text.toList = '-' :: magnitude
      · obtain ⟨magnitude, spelling⟩ := signed
        have kind : TokenKind.float (String.ofList magnitude) ∈ (Atom.float text).spell := by
          simp [Atom.spell, spelling]
        have same : text = "-" ++ String.ofList magnitude := by
          rw [← String.toList_inj, spelling]
          simp
        rw [same]
        exact ⟨_, .negativeFloat _ (legible _ kind).isFloat⟩
      · refine ⟨_, .float text (TokenKind.Legible.isFloat (legible _ ?_))⟩
        rw [Atom.spell]
        split
        · rename_i magnitude spelling
          exact absurd ⟨magnitude, spelling⟩ signed
        · exact List.mem_singleton.mpr rfl
  | @string value _ symbol =>
      rw [symbol]
      exact ⟨_, .string value ((legible (.string value) List.mem_cons_self).printable value rfl)⟩
  | type known symbol => exact readAs_type known symbol
  | @register name _ leads value =>
      have isRegister := (legible (.register name) List.mem_cons_self).isRegister
      obtain ⟨sigil, cls, ofClass⟩ := register_of_mem isRegister
      rw [h.spelled.get leads, Symbol.spelled_register sigil ofClass]
      exact ⟨_, .register name cls isRegister ofClass⟩
  | @declared name _ leads value =>
      have isName := (legible (.word name) List.mem_cons_self).isName
      have symbol := h.spelled.get leads
      cases register : machineRegister? name with
      | none =>
          rw [symbol, Symbol.spellsLabel isName.sigil register] at value
          cases value
      | some found =>
          obtain ⟨cls, index⟩ := found
          rw [symbol, Symbol.spelled, if_neg isName.sigil, register]
          exact ⟨_, .machine cls index (lt_of_machineRegister? register)⟩
  | machine spelled leads value => exact h.machine (lt_of_machineRegister? spelled) leads
  | label ordinary leads => exact ⟨_, h.label (legible _ List.mem_cons_self) leads⟩

theorem key (h : t.Shown labels) {parts : List (Located Atom)}
    (chain : Atom.KeyFor .builtIn t parts id)
    (legible : ∀ part ∈ parts, ∀ kind ∈ part.node.spell, kind.Legible) :
    ∃ keys, (t.get id).KeyReadAs labels keys := by
  cases chain with
  | @lone part _ stands =>
      obtain ⟨a, read⟩ := h.atom stands (legible part List.mem_cons_self)
      exact ⟨[a], .lone read⟩
  | @chain _ ids _ several stand symbol =>
      have shown : ∀ id ∈ ids, ∃ a, (t.get id).ReadAs labels a :=
        forall_of_forall₂ stand fun part mem _ stands => h.atom stands (legible part mem)
      obtain ⟨atoms, each⟩ := exists_forall₂ (List.forall_mem_map.mpr shown)
      rw [symbol]
      refine ⟨atoms, .chain ?_ each⟩
      rwa [List.length_map, ← stand.length_eq]

theorem operand (h : t.Shown labels) {o : Operand} {slot : Slot}
    (stands : o.StandsFor .builtIn t slot) (legible : ∀ kind ∈ o.spell, kind.Legible) :
    ∃ item, slot.ReadAs labels t item := by
  have keys : ∀ key ∈ o.keys, ∀ kind ∈ key.node.spell, kind.Legible := by
    intro key mem kind isKind
    exact legible kind (List.mem_append_right _ (List.mem_flatMap.mpr ⟨key, mem, by simp [isKind]⟩))
  have base : ∀ kind ∈ o.base.spell, kind.Legible :=
    fun kind isKind => legible kind (List.mem_append_left _ isKind)
  cases stands with
  | plain stands =>
      obtain ⟨a, read⟩ := h.atom stands base
      exact ⟨_, .plain read⟩
  | keyed stands chain =>
      obtain ⟨a, read⟩ := h.atom stands base
      obtain ⟨_, readKey⟩ := h.key chain keys
      exact ⟨_, .keyed read readKey⟩

end SymbolTable.Shown

end Symbols

section Instructions

variable {t : SymbolTable} {labels : List String} {s : Statement}

/-- The form of a statement is part of what is written. -/
theorem Statement.form_spell {f : Form} (h : s.form = some f) :
    (∀ o ∈ f.operands, o.node.spell ⊆ s.spell) ∧
      ∀ name ∈ f.targets, TokenKind.word name ∈ s.spell := by
  cases s with
  | openSub | closeSub | declare | label => cases h
  | instruction mnemonic operands =>
      cases h
      refine ⟨fun o mem kind isKind => ?_, by simp⟩
      exact List.mem_cons_of_mem _ (mem_intercalate (List.mem_map_of_mem mem) isKind)
  | jump name | call name =>
      cases h
      simp [spell]
  | branch negated condition name =>
      cases h
      cases condition with
      | truth | compare => constructor <;> grind [Condition.form, spell, Condition.spell]
  | assign target value =>
      cases value with
      | new => cases h
      | operand | binary | unary | addr | defined | clone =>
          cases h
          constructor <;> grind [spell, Value.spell]

theorem Symbol.KeyReadAs.lone_of_integer {symbol : Symbol} {keys : List Atom}
    (h : symbol.KeyReadAs labels keys) (integer : symbol.cls = .integer) :
    ∃ a, symbol.ReadAs labels a := by
  cases h with
  | lone read => exact ⟨_, read⟩
  | chain several each => cases integer

namespace SymbolTable.Shown

variable {mnemonic : String} {slots : List Slot}

theorem plain {id : SymbolId} (read : ∃ a, (t.get id).ReadAs labels a) :
    ∃ item, (Slot.plain id).ReadAs labels t item := by
  obtain ⟨a, read⟩ := read
  exact ⟨_, .plain read⟩

/-- A container and an integer key that are shown on their own. -/
theorem parts {container key : SymbolId}
    (read : ∃ item, (Slot.keyed container key).ReadAs labels t item)
    (index : (t.get key).cls = .integer) :
    (∃ item, (Slot.plain container).ReadAs labels t item) ∧
      ∃ item, (Slot.plain key).ReadAs labels t item := by
  obtain ⟨_, read⟩ := read
  cases read with
  | keyed base chain => exact ⟨⟨_, .plain base⟩, plain (chain.lone_of_integer index)⟩

/-- The slots of an operation can be read back. -/
theorem performs (h : t.Shown labels) (performs : s.Performs .builtIn t mnemonic slots)
    (legible : ∀ kind ∈ s.spell, kind.Legible) :
    ∀ slot ∈ slots, ∃ item, slot.ReadAs labels t item := by
  cases performs with
  | form isForm stand targets =>
      obtain ⟨operands, names⟩ := Statement.form_spell isForm
      refine List.forall_mem_append.mpr ⟨?_, ?_⟩
      · refine forall_of_forall₂ stand fun o mem slot stands => h.operand stands ?_
        exact fun kind isKind => legible kind (operands o mem isKind)
      · refine forall_of_forall₂ targets ?_
        rintro name mem _ ⟨id, leads, rfl⟩
        exact ⟨_, .plain (h.label (legible _ (names name mem)) leads)⟩
  | @create target type slot number id stands symbol name known =>
      refine List.forall_mem_cons.mpr ⟨?_, List.forall_mem_singleton.mpr ?_⟩
      · exact h.operand stands fun kind isKind => legible kind (List.mem_append_left _ isKind)
      · exact plain (readAs_type known symbol)
  | fetch isDest isSource index symbol =>
      have dest := h.operand isDest fun kind isKind => legible kind (List.mem_append_left _ isKind)
      have source := h.operand isSource fun kind isKind =>
        legible kind (List.mem_append_right _ (List.mem_cons_of_mem _ isKind))
      obtain ⟨container, key⟩ := parts source index
      simpa using ⟨dest, container, key, plain (readAs_one symbol)⟩
  | store isTarget isValue index symbol =>
      have target :=
        h.operand isTarget fun kind isKind => legible kind (List.mem_append_left _ isKind)
      have value := h.operand isValue fun kind isKind =>
        legible kind (List.mem_append_right _ (List.mem_cons_of_mem _ isKind))
      obtain ⟨container, key⟩ := parts target index
      simpa using ⟨container, key, plain (readAs_one symbol), value⟩

/-- So can the slots of everything that it emits. -/
theorem emits {config : Config} {spelling : Spelling}
    (emits : Selector.Emits { catalog := .builtIn, config } mnemonic slots t spelling)
    (each : ∀ slot ∈ slots, ∃ item, slot.ReadAs labels t item) :
    ∃ slots, spelling = Slot.spelling spelling.mnemonic slots ∧
      ∀ slot ∈ slots, ∃ item, slot.ReadAs labels t item := by
  cases emits with
  | whole => exact ⟨slots, rfl, each⟩
  | load slot temp mem register =>
      refine ⟨_, rfl, ?_⟩
      simpa using ⟨plain (readAs_temporary register), each slot mem⟩
  | store slot temp mem register =>
      refine ⟨_, rfl, ?_⟩
      simpa using ⟨each slot mem, plain (readAs_temporary register)⟩
  | create type temp id register known number =>
      dsimp only at known
      refine ⟨_, rfl, ?_⟩
      simpa using ⟨plain (readAs_temporary register), plain (readAs_type known number)⟩
  | operation temps registers =>
      refine ⟨_, rfl, List.forall_mem_map.mpr fun temp mem => ?_⟩
      exact plain (readAs_temporary (registers temp mem))

end SymbolTable.Shown

end Instructions

section Mnemonics

theorem mem_word_append {text more : List Char} (h : text ∈ Pattern.language .word)
    (goesOn : ∀ c ∈ more, isWordChar c = true) : text ++ more ∈ Pattern.language .word := by
  obtain ⟨first, isFirst, rest, isRest, rfl⟩ := Language.mem_mul.mp h
  refine Language.mem_mul.mpr ⟨first, isFirst, rest ++ more, ?_, (List.append_assoc ..).symm⟩
  exact mem_kstar_oneOf.mpr
    (List.forall_mem_append.mpr ⟨mem_kstar_oneOf.mp isRest, goesOn⟩)

theorem isWordChar_of_tag {tag : String} (h : tag ∈ operandTags) :
    ∀ c ∈ tag.toList, isWordChar c = true := by
  have all : ∀ tag ∈ operandTags, tag.toList.all isWordChar = true := by decide +kernel
  exact List.all_eq_true.mp (all tag h)

/-- Tags make a longer word of a word. -/
theorem mem_word_fullName {m : String} {tags : List String}
    (h : m.toList ∈ Pattern.language .word) (areTags : ∀ tag ∈ tags, tag ∈ operandTags) :
    (fullName m tags).toList ∈ Pattern.language .word := by
  induction tags using List.reverseRecOn with
  | nil => exact h
  | append_singleton tags tag ih =>
      obtain ⟨before, last⟩ := List.forall_mem_append.mp areTags
      rw [toList_fullName_concat]
      refine mem_word_append (ih before) (List.forall_mem_cons.mpr ⟨rfl, ?_⟩)
      exact isWordChar_of_tag (List.forall_mem_singleton.mp last)

/-- The mnemonics of the catalog are words, and no keywords but those that a line can begin
with. -/
theorem BuiltIn.mnemonics_named : ∀ op ∈ BuiltIn.ops,
    op.mnemonic.toList.head?.any isWordStart = true ∧ op.mnemonic.toList.all isWordChar = true ∧
      op.mnemonic ≠ "call" ∧
      (op.mnemonic ∈ ["if", "unless", "new"] ∨ ∀ m ∈ Mark.all, op.mnemonic ≠ m.text) := by
  decide +kernel

theorem mem_word_mnemonic {op : OpSpec} (h : op ∈ BuiltIn.ops) :
    op.mnemonic.toList ∈ Pattern.language .word := by
  obtain ⟨start, all, _⟩ := BuiltIn.mnemonics_named op h
  cases text : op.mnemonic.toList with
  | nil =>
      rw [text] at start
      cases start
  | cons c more =>
      rw [text] at start all
      refine Language.mem_mul.mpr ⟨[c], ⟨c, start, rfl⟩, more, mem_kstar_oneOf.mpr ?_, rfl⟩
      exact fun d mem => List.all_eq_true.mp all d (List.mem_cons_of_mem _ mem)

theorem underscore_not_mem_mark (m : Mark) : '_' ∉ m.text.toList := by
  cases m <;> decide

theorem isMnemonic_of_justified {i : Instruction} {limit : Nat} {t : SymbolTable}
    (h : i.Justified .builtIn limit t) : IsMnemonic i.mnemonic := by
  obtain ⟨op, isOp, opcode, extra, _, _, mnemonic, divided⟩ := division_of_justified h
  obtain ⟨_, _, call, keyword⟩ := BuiltIn.mnemonics_named op isOp
  have areTags : ∀ tag ∈ extra, tag ∈ operandTags := by
    intro tag mem
    refine (BuiltIn.regular_ops op isOp).mem_operandTags ?_
    rw [divided]
    exact List.mem_append_left _ mem
  have isWord := mem_word_fullName (mem_word_mnemonic isOp) areTags
  rw [mnemonic]
  cases extra using List.reverseRecOn with
  | nil =>
      rcases keyword with keyword | ordinary
      · exact .inr keyword
      · exact .inl ⟨⟨isWord, fun m => ordinary m (Pattern.mem_markAll m)⟩, call⟩
  | append_singleton tags tag =>
      -- an underscore is part of the name
      have underscore : '_' ∈ (fullName op.mnemonic (tags ++ [tag])).toList := by
        rw [toList_fullName_concat]
        simp
      refine .inl ⟨⟨isWord, fun m same => ?_⟩, fun same => ?_⟩
      · rw [same] at underscore
        exact underscore_not_mem_mark m underscore
      · rw [same] at underscore
        exact absurd underscore (by decide)

end Mnemonics

theorem Selector.build_layout {s : Selector} {mnemonic : String} {operands : List SymbolId}
    {keyed : KeyedMask} {i : Instruction} (h : s.build mnemonic operands keyed = .ok i) :
    ∃ entry, s.catalog.lookup i.fullName = some entry ∧
      i.layout = operandLayout operands.length entry.directions.length keyed := by
  obtain ⟨_, entry, found, rfl⟩ := build_eq_ok.mp h
  refine ⟨entry, ?_, rfl⟩
  rw [instructionOf, (Catalog.lookup_some found).2]
  exact found

theorem Instruction.Built.layout_eq {catalog : Catalog} {t : SymbolTable} {i : Instruction}
    (h : i.Built catalog t) :
    ∃ entry, catalog.lookup i.fullName = some entry ∧
      i.layout = operandLayout i.operands.length entry.directions.length i.keyed :=
  Selector.build_layout (h.again { catalog, config := {}, symbols := t } rfl rfl)

/-- An instruction shows all its slots, for its entry has no fewer operands. -/
theorem layout_of_built {i : Instruction} {limit : Nat} {t : SymbolTable} {slots : List Slot}
    (built : i.Built .builtIn t) (justified : i.Justified .builtIn limit t)
    (inside : limit ≤ maskWidth) (spelled : i.spelling = Slot.spelling i.mnemonic slots) :
    i.layout = slots.map Slot.shape := by
  have width : i.operands.length = Slot.width slots :=
    congrArg (fun spelling => spelling.operands.length) spelled
  have keyed : i.keyed = Slot.mask 0 slots := congrArg Spelling.keyed spelled
  obtain ⟨op, _, opcode, extra, found, _, _, divided⟩ := division_of_justified justified
  obtain ⟨entry, found', layout⟩ := built.layout_eq
  obtain rfl := Option.some.inj (found'.symm.trans found)
  have enough : i.operands.length ≤ (op.entry opcode).directions.length := by
    have lengths := congrArg List.length divided
    simp only [List.length_map, List.length_append, Signature.of, List.length_zipIdx] at lengths
    simp only [OpSpec.entry, List.length_map]
    omega
  have arity := justified.arity
  rw [layout, operandLayout, Nat.min_eq_left enough, keyed, width]
  exact Slot.layout_of_marks (Slot.marksFrom_mask slots) (by omega)

namespace CompiledRun

variable {config : Config} {source : String} {lowered : Lowered}
  {statements : List (Located Statement)} {state : Lowering} {name : String}

theorem mem_defines {catalog : Catalog}
    (h : CompiledRun catalog config source lowered statements state) {id : SymbolId}
    (leads : state.selector.symbols.labelId name = some id) :
    name ∈ statements.flatMap (·.node.defines) := by
  by_contra undefined
  obtain ⟨found, address⟩ := SymbolTable.labelId_eq_some.mp leads
  have wf := h.tracks.wf
  have unresolved := h.tracks.mem_unresolved.mpr
    ⟨undefined, id, wf.lt_of_lookup found, address, wf.name_of_lookup found⟩
  have reports := h.tracks.undefinedLabels_eq
  rw [h.resolved] at reports
  rw [List.map_eq_nil_iff.mp reports.symm] at unresolved
  cases unresolved

end CompiledRun

/-- The statements of a text whose listing is a source again. -/
structure Statement.Listable (statements : List (Located Statement)) : Prop where
  legible : ∀ s ∈ statements, ∀ kind ∈ s.node.spell, kind.Legible
  undeclared : ∀ s ∈ statements, ∀ type name, s.node ≠ .declare type name
  ordinary : ∀ name ∈ statements.flatMap (·.node.defines), machineRegister? name = none

/-- A label of a statement is defined there or a target. -/
theorem Statement.mem_labels {s : Located Statement} {name : String} (h : name ∈ s.node.labels) :
    name ∈ s.node.defines ∨ ∃ r ∈ Statement.references s, r.name = name ∧ r.isTarget = true := by
  obtain ⟨node, span⟩ := s
  have target (refs : List Reference) :
      ∃ r ∈ refs ++ [.target span name], r.name = name ∧ r.isTarget = true :=
    ⟨.target span name, by simp, rfl, rfl⟩
  cases node with
  | openSub | label => exact .inl h
  | closeSub | declare | instruction => exact absurd h List.not_mem_nil
  | jump | call =>
      obtain rfl := List.mem_singleton.mp h
      exact .inr (target [])
  | branch =>
      obtain rfl := List.mem_singleton.mp h
      exact .inr (target _)
  | assign _ value =>
      cases value with
      | addr =>
          obtain rfl := List.mem_singleton.mp h
          exact .inr (target _)
      | operand | binary | unary | new | defined | clone => exact absurd h List.not_mem_nil

theorem Statement.word_of_defines {s : Statement} {name : String} (h : name ∈ s.defines) :
    TokenKind.word name ∈ s.spell := by
  cases s with
  | openSub | label =>
      obtain rfl := List.mem_singleton.mp h
      simp [spell]
  | closeSub | declare | instruction | assign | jump | call | branch =>
      exact absurd h List.not_mem_nil

namespace CompiledRun

variable {config : Config} {source : String} {lowered : Lowered}
  {statements : List (Located Statement)} {state : Lowering}

theorem namesFit {catalog : Catalog}
    (h : CompiledRun catalog config source lowered statements state)
    (listable : Statement.Listable statements) : ∀ s ∈ statements, s.node.NamesFit := by
  intro s mem
  refine ⟨fun kind isKind => (listable.legible s mem kind isKind).sigilFits, ?_,
    listable.undeclared s mem⟩
  intro name isLabel
  apply listable.ordinary
  rcases Statement.mem_labels isLabel with defines | ⟨r, isReference, rfl, target⟩
  · exact List.mem_flatMap.mpr ⟨s, mem, defines⟩
  · obtain ⟨id, found, address⟩ :=
      h.tracks.known r (List.mem_flatMap.mpr ⟨s, mem, isReference⟩)
    exact h.mem_defines (SymbolTable.labelId_eq_some.mpr ⟨found, address target⟩)

theorem shown {catalog : Catalog} (h : CompiledRun catalog config source lowered statements state)
    (listable : Statement.Listable statements) :
    lowered.unit.symbols.Shown (statements.flatMap (·.node.defines)) := by
  have spelled := Lowering.run_asSpelled (h.namesFit listable) SymbolTable.asSpelled_empty h.ran
  have resolved : ∀ name id, state.selector.symbols.labelId name = some id →
      name ∈ statements.flatMap (·.node.defines) := fun _ _ => h.mem_defines
  rw [h.result]
  exact ⟨spelled, resolved⟩

theorem isLabel_of_defines (listable : Statement.Listable statements) {name : String}
    (mem : name ∈ statements.flatMap (·.node.defines)) : IsLabel name := by
  refine ⟨?_, listable.ordinary name mem⟩
  obtain ⟨s, isStatement, defines⟩ := List.mem_flatMap.mp mem
  exact (listable.legible s isStatement _ (Statement.word_of_defines defines)).isName

theorem label_eq {catalog : Catalog}
    (h : CompiledRun catalog config source lowered statements state) {i : Instruction}
    (mem : i ∈ lowered.unit.instructions) (label : i.isLabel = true) :
    ∃ name id, i = .label name id ∧ name ∈ statements.flatMap (·.node.defines) := by
  rw [h.result] at mem
  have placed : i ∈ state.selector.instructions.filter Instruction.isLabel :=
    List.mem_filter.mpr ⟨mem, label⟩
  rw [h.tracks.placed] at placed
  obtain ⟨id, defined, rfl⟩ := List.mem_map.mp placed
  refine ⟨_, id, rfl, ?_⟩
  rw [← h.tracks.defined]
  exact List.mem_map.mpr ⟨id, defined, rfl⟩

/-- Every instruction of a listable text is read back as a line. -/
theorem readAs (h : CompiledRun .builtIn config source lowered statements state)
    (listable : Statement.Listable statements) :
    ∃ lines, List.Forall₂
      (Instruction.ReadAs (statements.flatMap (·.node.defines)) lowered.unit.symbols)
      lowered.unit.instructions lines := by
  refine exists_forall₂ fun i mem => ?_
  by_cases label : i.isLabel = true
  · obtain ⟨name, id, rfl, defines⟩ := h.label_eq mem label
    exact ⟨_, .label (isLabel_of_defines listable defines)⟩
  · have operation : i.isLabel = false := by simpa using label
    have shown := h.shown listable
    have justified := h.justified mem operation
    obtain ⟨s, isStatement, part⟩ := h.partOf mem operation
    obtain ⟨built, mnemonic, slots, performs, emits⟩ := part
    dsimp only at built performs
    obtain ⟨slots, spelled, each⟩ := SymbolTable.Shown.emits emits
      (shown.performs performs (listable.legible s isStatement))
    obtain ⟨items, read⟩ := exists_forall₂ each
    have layout := layout_of_built built justified (Config.maxArity_le h.valid) spelled
    exact ⟨_, .operation operation (isMnemonic_of_justified justified) spelled layout read⟩

end CompiledRun
end OpSelect
