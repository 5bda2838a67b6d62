import OpSelect.Proofs.Listing.Legible

/-!
The characters of a listing. What an instruction shows comes from words, registers and literals of
the text, and all of these are visible ASCII but for the strings, which are escaped. So a listing
has a line for every instruction and no others, and its lines are the texts of the records.
-/

namespace OpSelect

open Computability

/-- The characters from the blank to the tilde. -/
def IsVisible (c : Char) : Prop := ' ' ≤ c ∧ c ≤ '~'

instance (c : Char) : Decidable (IsVisible c) := inferInstanceAs (Decidable (_ ∧ _))

/-- A text without line ends, control characters and characters beyond ASCII. -/
def Visible (text : String) : Prop := ∀ c ∈ text.toList, IsVisible c

-- the characters of a list are gone through, not all characters there are
instance (cs : List Char) : Decidable (∀ c ∈ cs, IsVisible c) := List.decidableBAll IsVisible cs

instance (text : String) : Decidable (Visible text) :=
  inferInstanceAs (Decidable (∀ c ∈ text.toList, IsVisible c))

section Characters

theorem IsVisible.ne_newline {c : Char} (h : IsVisible c) : c ≠ '\n' := by
  rintro rfl
  exact absurd h (by decide)

theorem isVisible_of_isDigit {c : Char} (h : c.isDigit = true) : IsVisible c := by
  grind [IsVisible, Char.isDigit, Char.le_def, UInt32.le_iff_toNat_le]

theorem isVisible_of_isWordChar {c : Char} (h : isWordChar c = true) : IsVisible c := by
  by_cases underscore : c = '_'
  · subst underscore
    decide
  · unfold isWordChar Char.isAlphanum Char.isAlpha Char.isUpper Char.isLower at h
    grind [IsVisible, Char.isDigit, Char.le_def, UInt32.le_iff_toNat_le]

theorem isVisible_of_mem_toDigits {base n : Nat} (proper : 1 < base) (small : base ≤ 16) :
    ∀ c ∈ base.toDigits n, IsVisible c := by
  have all : ∀ d < 16, IsVisible (Nat.digitChar d) := by decide
  intro c mem
  obtain ⟨d, isDigit, rfl⟩ := exists_digit_of_mem_toDigits proper c mem
  exact all d (Nat.lt_of_lt_of_le isDigit small)

/-- An escaped character is written in visible ones, whatever it is. -/
theorem isVisible_of_mem_escapeChar (c : Char) : ∀ d ∈ Text.escapeChar c, IsVisible d := by
  unfold Text.escapeChar
  split
  · decide
  split
  · decide
  split
  · decide
  split
  · rename_i escaped
    rcases escaped with rfl | rfl | rfl <;> decide
  split
  · rename_i visible
    exact List.forall_mem_singleton.mpr visible
  · simp only [List.forall_mem_append]
    exact ⟨⟨by decide, isVisible_of_mem_toDigits (by decide) (by decide)⟩, by decide⟩

end Characters

section Texts

theorem Visible.append {a b : String} (ha : Visible a) (hb : Visible b) : Visible (a ++ b) := by
  rw [Visible, String.toList_append]
  exact List.forall_mem_append.mpr ⟨ha, hb⟩

theorem visible_intercalate {separator : String} {parts : List String} (between : Visible separator)
    (each : ∀ part ∈ parts, Visible part) : Visible (String.intercalate separator parts) := by
  rw [Visible, String.toList_intercalate]
  induction parts with
  | nil => exact fun _ mem => absurd mem List.not_mem_nil
  | cons part parts ih =>
      obtain ⟨first, others⟩ := List.forall_mem_cons.mp each
      rw [List.map_cons, intercalate_cons]
      refine List.forall_mem_append.mpr ⟨first, fun c mem => ?_⟩
      obtain ⟨_, isText, mem⟩ := List.mem_flatMap.mp mem
      obtain ⟨part, isPart, rfl⟩ := List.mem_map.mp isText
      exact List.forall_mem_append.mpr ⟨between, others part isPart⟩ c mem

theorem visible_escape (value : String) : Visible (Text.escape value) := by
  intro d mem
  rw [Text.escape, String.toList_ofList] at mem
  obtain ⟨c, _, isEscape⟩ := List.mem_flatMap.mp mem
  exact isVisible_of_mem_escapeChar c d isEscape

theorem visible_nat (n : Nat) : Visible n.repr := by
  rw [Visible, Nat.toList_repr]
  exact isVisible_of_mem_toDigits (by decide) (by decide)

theorem visible_int (n : Int) : Visible (toString n) := by
  rw [Int.toString_eq_repr, Int.repr_eq_if]
  split
  · exact visible_nat _
  · exact Visible.append (by decide) (visible_nat _)

theorem visible_machineRegister (cls : ValueClass) (index : Nat) :
    Visible (cls.machineRegister index) := by
  rw [Visible, cls.machineRegister_toList]
  refine List.forall_mem_cons.mpr ⟨?_, isVisible_of_mem_toDigits (by decide) (by decide)⟩
  cases cls <;> decide

theorem visible_virtualRegister (cls : ValueClass) (index : Nat) :
    Visible (cls.virtualRegister index) := by
  rw [Visible, cls.virtualRegister_toList]
  exact List.forall_mem_cons.mpr ⟨by decide, visible_machineRegister cls index⟩

end Texts

section Tokens

/-- All words of the language are over the class. -/
def Over (P : Char → Prop) (L : Language Char) : Prop := ∀ word ∈ L, ∀ c ∈ word, P c

variable {P : Char → Prop} {L M : Language Char} {p : Char → Bool}

theorem over_one : Over P 1 := by
  intro word isEmpty
  rw [(Language.mem_one word).mp isEmpty]
  exact fun _ mem => absurd mem List.not_mem_nil

theorem over_oneOf (h : ∀ c, p c = true → P c) : Over P (oneOf p) := by
  rintro _ ⟨c, isIn, rfl⟩
  exact List.forall_mem_singleton.mpr (h c isIn)

theorem over_kstar_oneOf (h : ∀ c, p c = true → P c) : Over P (oneOf p)∗ :=
  fun _ isWord c mem => h c (mem_kstar_oneOf.mp isWord c mem)

theorem Over.mul (hL : Over P L) (hM : Over P M) : Over P (L * M) := by
  intro word isWord
  obtain ⟨first, isFirst, second, isSecond, rfl⟩ := Language.mem_mul.mp isWord
  exact List.forall_mem_append.mpr ⟨hL first isFirst, hM second isSecond⟩

theorem Over.add (hL : Over P L) (hM : Over P M) : Over P (L + M) := by
  intro word isWord
  exact (Language.mem_add L M word).mp isWord |>.elim (hL word) (hM word)

theorem over_someOf (h : ∀ c, p c = true → P c) : Over P (someOf p) :=
  (over_oneOf h).mul (over_kstar_oneOf h)

theorem over_mark {c : Char} (h : P c) : Over P (oneOf (· == c)) :=
  over_oneOf fun _ same => beq_iff_eq.mp same ▸ h

theorem over_word : Over IsVisible (Pattern.language .word) := by
  refine (over_oneOf fun c isStart => ?_).mul (over_kstar_oneOf fun c => isVisible_of_isWordChar)
  exact isVisible_of_isWordChar (isWordChar_of_isWordStart isStart)

theorem over_register : Over IsVisible (Pattern.language .register) := by
  refine (over_mark (by decide)).mul ((over_oneOf fun c isLetter => ?_).mul
    (over_someOf fun c => isVisible_of_isDigit))
  simp only [isRegisterLetter, Bool.or_eq_true, beq_iff_eq] at isLetter
  rcases isLetter with ((rfl | rfl) | rfl) | rfl <;> decide

theorem over_float : Over IsVisible (Pattern.language .float) := by
  have digits : Over IsVisible (someOf Char.isDigit) := over_someOf fun c => isVisible_of_isDigit
  have sign : Over IsVisible (oneOf fun c => c == '+' || c == '-') := by
    refine over_oneOf fun c isSign => ?_
    rcases Bool.or_eq_true_iff.mp isSign with same | same <;>
      exact beq_iff_eq.mp same ▸ by decide
  have letter : Over IsVisible (oneOf fun c => c == 'e' || c == 'E') := by
    refine over_oneOf fun c isLetter => ?_
    rcases Bool.or_eq_true_iff.mp isLetter with same | same <;>
      exact beq_iff_eq.mp same ▸ by decide
  have exponent : Over IsVisible Pattern.exponentLanguage :=
    letter.mul ((over_one.add sign).mul digits)
  exact digits.mul ((over_mark (by decide)).mul (digits.mul (over_one.add exponent)))

/-- The text that a token can bring into a listing as it stands is visible. -/
def TokenKind.IsVisible : TokenKind → Prop
  | .word text | .register text | .float text => Visible text
  | .mark _ | .newline | .directive _ | .string _ | .integer _ => True

theorem TokenKind.IsRead.isVisible {kind : TokenKind} (h : kind.IsRead) : kind.IsVisible := by
  obtain ⟨p, rest, text, takes, denotes⟩ := h
  have isWord := takes.mem
  cases denotes with
  | mark | newline | directive | string | integer => trivial
  | word =>
      rw [TokenKind.IsVisible, Visible, String.toList_ofList]
      exact over_word text isWord
  | register =>
      rw [TokenKind.IsVisible, Visible, String.toList_ofList]
      exact over_register text isWord
  | float =>
      rw [TokenKind.IsVisible, Visible, String.toList_ofList]
      exact over_float text isWord

theorem isVisible_of_parse {source : String} {statements : List (Located Statement)}
    (parsed : parse source = .ok statements) :
    ∀ s ∈ statements, ∀ kind ∈ s.node.spell, kind.IsVisible := by
  intro s mem kind isKind
  cases lexed : tokenize source with
  | error diagnostics =>
      rw [parse, lexed] at parsed
      cases parsed
  | ok tokens =>
      rcases mem_tokens_of_parse lexed parsed s mem kind isKind with isToken | ⟨m, rfl⟩
      · exact (isRead_of_tokenize lexed kind isToken).isVisible
      · trivial

end Tokens

section Symbols

variable {catalog : Catalog} {t : SymbolTable} {id : SymbolId}

theorem Symbol.visible_displayText {s : Symbol} (h : Visible s.name) : Visible s.displayText := by
  unfold displayText
  split
  · exact ((show Visible "\"" by decide).append (visible_escape _)).append (by decide)
  · exact visible_machineRegister _ _
  · exact h

/-- The text that the listing shows for the symbol is visible. -/
def SymbolTable.Shows (t : SymbolTable) (id : SymbolId) : Prop := Visible (t.get id).displayText

theorem SymbolTable.shows_of_lookup {name : String} (wf : t.WellFormed) (h : Visible name)
    (leads : t.lookup name = some id) : t.Shows id := by
  apply Symbol.visible_displayText
  rwa [wf.name_of_lookup leads]

theorem SymbolTable.shows_number (number : Int)
    (symbol : t.get id = ⟨toString number, .integer, .constant⟩) : t.Shows id := by
  rw [Shows, symbol]
  exact visible_int number

theorem SymbolTable.IsTemporary.shows (h : t.IsTemporary id) : t.Shows id := by
  obtain ⟨n, symbol⟩ := h
  rw [Shows, symbol]
  exact visible_virtualRegister .aggregate n

theorem visible_of_label {name : String} (wf : t.WellFormed)
    (h : (TokenKind.word name).IsVisible) (leads : t.labelId name = some id) : t.Shows id :=
  t.shows_of_lookup wf h (SymbolTable.labelId_eq_some.mp leads).1

/-- The sign of a literal is visible too. -/
theorem visible_float {text : String} (h : ∀ kind ∈ (Atom.float text).spell, kind.IsVisible) :
    Visible text := by
  by_cases signed : ∃ magnitude, text.toList = '-' :: magnitude
  · obtain ⟨magnitude, spelling⟩ := signed
    have isKind : TokenKind.float (String.ofList magnitude) ∈ (Atom.float text).spell := by
      simp [Atom.spell, spelling]
    have visible : Visible (String.ofList magnitude) := h _ isKind
    rw [Visible, String.toList_ofList] at visible
    rw [Visible, spelling]
    exact List.forall_mem_cons.mpr ⟨by decide, visible⟩
  · refine h (.float text) ?_
    rw [Atom.spell]
    split
    · rename_i magnitude spelling
      exact absurd ⟨magnitude, spelling⟩ signed
    · exact List.mem_singleton.mpr rfl

theorem Atom.StandsFor.shows {a : Atom} (h : a.StandsFor catalog t id) (wf : t.WellFormed)
    (spelled : ∀ kind ∈ a.spell, kind.IsVisible) : t.Shows id := by
  cases h with
  | integer symbol => exact t.shows_number _ symbol
  | type known symbol => exact t.shows_number _ symbol
  | float symbol =>
      rw [SymbolTable.Shows, symbol]
      exact visible_float spelled
  | string symbol =>
      rw [SymbolTable.Shows, symbol]
      exact ((show Visible "\"" by decide).append (visible_escape _)).append (by decide)
  | register leads value => exact t.shows_of_lookup wf (spelled _ List.mem_cons_self) leads
  | declared leads value => exact t.shows_of_lookup wf (spelled _ List.mem_cons_self) leads
  | machine isRegister leads value =>
      exact t.shows_of_lookup wf (visible_machineRegister _ _) leads
  | label ordinary leads => exact visible_of_label wf (spelled _ List.mem_cons_self) leads

/-- A joined key embeds the texts of its parts. -/
theorem Atom.KeyFor.shows {parts : List (Located Atom)} (h : KeyFor catalog t parts id)
    (wf : t.WellFormed) (spelled : ∀ part ∈ parts, ∀ kind ∈ part.node.spell, kind.IsVisible) :
    t.Shows id := by
  cases h with
  | lone stands => exact stands.shows wf (spelled _ List.mem_cons_self)
  | @chain _ ids _ several stand symbol =>
      have each : ∀ id ∈ ids, t.Shows id :=
        forall_of_forall₂ stand fun part mem _ stands => stands.shows wf (spelled part mem)
      rw [SymbolTable.Shows, symbol]
      apply Symbol.visible_displayText
      refine visible_intercalate (by decide) ?_
      rw [List.map_map]
      exact List.forall_mem_map.mpr each

theorem Operand.StandsFor.shows {o : Operand} {slot : Slot} (h : o.StandsFor catalog t slot)
    (wf : t.WellFormed) (spelled : ∀ kind ∈ o.spell, kind.IsVisible) :
    ∀ id ∈ slot.operands, t.Shows id := by
  obtain ⟨base, groups⟩ := List.forall_mem_append.mp spelled
  cases h with
  | plain stands => exact List.forall_mem_singleton.mpr (stands.shows wf base)
  | keyed stands chain =>
      refine List.forall_mem_cons.mpr ⟨stands.shows wf base, List.forall_mem_singleton.mpr ?_⟩
      refine chain.shows wf fun key mem kind isKind => groups kind ?_
      exact List.mem_flatMap.mpr ⟨key, mem, by simp [isKind]⟩

end Symbols

section Instructions

variable {catalog : Catalog} {t : SymbolTable} {s : Statement} {mnemonic : String}
  {slots : List Slot}

theorem visible_mnemonicKind {name : String} (h : (mnemonicKind name).IsVisible) :
    Visible name := by
  unfold mnemonicKind at h
  split at h
  · decide
  · decide
  · decide
  · exact h

theorem Relation.visible_mnemonic (r : Relation) : Visible r.mnemonic := by
  cases r <;> decide

theorem BinaryOp.visible_mnemonic (op : BinaryOp) : Visible op.mnemonic := by
  cases op <;> decide

theorem UnaryOp.visible_mnemonic (op : UnaryOp) : Visible op.mnemonic := by
  cases op <;> decide

theorem Condition.visible_form (negated : Bool) (label : String) (c : Condition) :
    Visible (c.form negated label).mnemonic := by
  cases c with
  | truth =>
      dsimp only [form]
      cases negated <;> decide
  | compare relation => exact Relation.visible_mnemonic _

theorem Value.visible_form {target : Located Operand} {v : Value} {f : Form}
    (h : v.form target = some f) : Visible f.mnemonic := by
  cases v with
  | new => cases h
  | operand | addr | defined | clone =>
      cases h
      dsimp only
      decide
  | binary op =>
      cases h
      exact op.visible_mnemonic
  | unary op =>
      cases h
      exact op.visible_mnemonic

/-- Of the mnemonics only that of a plain instruction is written in the text. -/
theorem Statement.visible_form {f : Form} (h : s.form = some f)
    (spelled : ∀ kind ∈ s.spell, kind.IsVisible) : Visible f.mnemonic := by
  cases s with
  | openSub | closeSub | declare | label => cases h
  | instruction mnemonic operands =>
      cases h
      exact visible_mnemonicKind (spelled _ List.mem_cons_self)
  | jump | call =>
      cases h
      dsimp only
      decide
  | branch negated condition name =>
      cases h
      exact condition.visible_form negated name
  | assign target value => exact value.visible_form h

/-- An operation with a visible mnemonic over operands that are shown so. -/
structure Slot.Shown (t : SymbolTable) (mnemonic : String) (slots : List Slot) : Prop where
  mnemonic : Visible mnemonic
  operands : ∀ slot ∈ slots, ∀ id ∈ slot.operands, t.Shows id

theorem Statement.Performs.shown (h : s.Performs catalog t mnemonic slots) (wf : t.WellFormed)
    (spelled : ∀ kind ∈ s.spell, kind.IsVisible) : Slot.Shown t mnemonic slots := by
  cases h with
  | form isForm stand targets =>
      obtain ⟨operands, names⟩ := Statement.form_spell isForm
      refine ⟨Statement.visible_form isForm spelled, List.forall_mem_append.mpr ⟨?_, ?_⟩⟩
      · exact forall_of_forall₂ stand fun o mem slot stands =>
          stands.shows wf fun kind isKind => spelled kind (operands o mem isKind)
      · refine forall_of_forall₂ targets ?_
        rintro name mem _ ⟨id, leads, rfl⟩
        exact List.forall_mem_singleton.mpr (visible_of_label wf (spelled _ (names name mem)) leads)
  | create stands symbol name known =>
      obtain ⟨target, _⟩ := List.forall_mem_append.mp spelled
      refine ⟨by decide, List.forall_mem_cons.mpr ⟨stands.shows wf target, ?_⟩⟩
      exact List.forall_mem_singleton.mpr (List.forall_mem_singleton.mpr (t.shows_number _ symbol))
  | fetch isDest isSource index symbol =>
      obtain ⟨target, value⟩ := List.forall_mem_append.mp spelled
      have dest := isDest.shows wf target
      have source := isSource.shows wf (List.forall_mem_cons.mp value).2
      have one := t.shows_number 1 symbol
      exact ⟨by decide, by simp_all [Slot.operands]⟩
  | store isTarget isValue index symbol =>
      obtain ⟨target, value⟩ := List.forall_mem_append.mp spelled
      have dest := isTarget.shows wf target
      have source := isValue.shows wf (List.forall_mem_cons.mp value).2
      have one := t.shows_number 1 symbol
      exact ⟨by decide, by simp_all [Slot.operands]⟩

/-- What an operation emits beyond itself has temporaries, types and slots of its own. -/
theorem Selector.Emits.shown {selector : Selector} {spelling : Spelling}
    (h : selector.Emits mnemonic slots t spelling) (shown : Slot.Shown t mnemonic slots) :
    Visible spelling.mnemonic ∧ ∀ id ∈ spelling.operands, t.Shows id := by
  obtain ⟨isVisible, operands⟩ := shown
  cases h with
  | whole =>
      refine ⟨isVisible, fun id mem => ?_⟩
      obtain ⟨slot, isSlot, mem⟩ := List.mem_flatMap.mp mem
      exact operands slot isSlot id mem
  | load slot temp mem register =>
      refine ⟨show Visible "set" by decide, List.forall_mem_cons.mpr ⟨register.shows, ?_⟩⟩
      simpa using operands slot mem
  | store slot temp mem register =>
      refine ⟨show Visible "set" by decide, ?_⟩
      exact List.forall_mem_append.mpr
        ⟨operands slot mem, List.forall_mem_singleton.mpr register.shows⟩
  | create type temp id register known number =>
      refine ⟨show Visible "new" by decide, List.forall_mem_cons.mpr ⟨register.shows, ?_⟩⟩
      exact List.forall_mem_singleton.mpr (t.shows_number type number)
  | operation temps registers =>
      refine ⟨isVisible, fun id mem => ?_⟩
      obtain ⟨_, isSlot, mem⟩ := List.mem_flatMap.mp mem
      obtain ⟨temp, isTemp, rfl⟩ := List.mem_map.mp isSlot
      rw [List.mem_singleton.mp mem]
      exact (registers temp isTemp).shows

end Instructions

section Lines

theorem visible_headD {texts : List String} (h : ∀ text ∈ texts, Visible text) :
    Visible (texts.headD "") := by
  cases texts with
  | nil => decide
  | cons text texts => exact h text List.mem_cons_self

/-- Brackets are all that a layout adds to the texts of the operands. -/
theorem visible_of_mem_fill {shapes : List SlotShape} {texts : List String}
    (h : ∀ text ∈ texts, Visible text) : ∀ part ∈ SlotShape.fill shapes texts, Visible part := by
  have dropped (n : Nat) : ∀ text ∈ texts.drop n, Visible text :=
    fun text mem => h text (List.mem_of_mem_drop mem)
  fun_induction SlotShape.fill shapes texts with
  | case1 => exact fun _ mem => absurd mem List.not_mem_nil
  | case2 shapes texts ih =>
      refine List.forall_mem_cons.mpr ⟨visible_headD h, ih (dropped 1) ?_⟩
      exact fun n text mem => dropped 1 text (List.mem_of_mem_drop mem)
  | case3 shapes texts ih =>
      refine List.forall_mem_cons.mpr ⟨?_, ih (dropped 2) ?_⟩
      · exact (((visible_headD h).append (by decide)).append (visible_headD (dropped 1))).append
          (by decide)
      · exact fun n text mem => dropped 2 text (List.mem_of_mem_drop mem)

theorem Instruction.visible_render {i : Instruction} {t : SymbolTable} (h : Visible i.mnemonic)
    (operands : i.isLabel = false → ∀ id ∈ i.operands, t.Shows id) : Visible (i.render t) := by
  unfold render
  split
  · exact h.append (by decide)
  · rename_i unlabelled
    split
    · exact h
    · refine (h.append (by decide)).append (visible_intercalate (by decide) ?_)
      refine visible_of_mem_fill (List.forall_mem_map.mpr (operands ?_))
      simpa using unlabelled

theorem CompiledRun.visible_render {catalog : Catalog} {config : Config} {source : String}
    {lowered : Lowered} {statements : List (Located Statement)} {state : Lowering}
    (h : CompiledRun catalog config source lowered statements state) :
    ∀ i ∈ lowered.unit.instructions, Visible (i.render lowered.unit.symbols) := by
  intro i mem
  have spelled := isVisible_of_parse h.parsed
  by_cases label : i.isLabel = true
  · obtain ⟨name, id, rfl, defines⟩ := h.label_eq mem label
    obtain ⟨s, isStatement, defines⟩ := List.mem_flatMap.mp defines
    have visible := spelled s isStatement _ (Statement.word_of_defines defines)
    exact Instruction.visible_render visible fun other => absurd (label.symm.trans other) (by decide)
  · have operation : i.isLabel = false := by simpa using label
    obtain ⟨s, isStatement, part⟩ := h.partOf mem operation
    obtain ⟨_, mnemonic, slots, performs, emits⟩ := part
    have wf : lowered.unit.symbols.WellFormed := by
      rw [h.result]
      exact h.tracks.wf
    obtain ⟨visible, operands⟩ :=
      emits.shown (performs.shown wf (spelled s isStatement))
    exact Instruction.visible_render visible fun _ => operands

/-- A line of the listing without its end. -/
def CodeUnit.lineText (u : CodeUnit) (i : Instruction) : List Char :=
  (if i.isLabel then "" else "    ").toList ++ (i.record u.symbols).text.toList

theorem CodeUnit.toList_listing (u : CodeUnit) :
    u.listing.toList = (u.instructions.map u.lineText).flatMap (· ++ ['\n']) := by
  simp [listing, line, lineText, Instruction.record, String.toList_join, List.flatMap_map]

theorem CodeUnit.visible_lineText {u : CodeUnit} {i : Instruction}
    (h : Visible (i.render u.symbols)) : ∀ c ∈ u.lineText i, IsVisible c := by
  refine List.forall_mem_append.mpr ⟨?_, h⟩
  cases i.isLabel <;> decide

/-- The listing of a compiled text is visible ASCII in lines that end with newlines. There are as
many lines as instructions and as records, and each is the text of its record, which is indented
by four blanks unless it is a label. -/
theorem listing_lines_are_records {catalog : Catalog} {config : Config} {source : String}
    {lowered : Lowered} (h : compile catalog config source = .ok lowered) :
    (∀ c ∈ lowered.unit.listing.toList, c = '\n' ∨ ' ' ≤ c ∧ c ≤ '~') ∧
      lowered.unit.records.length = lowered.unit.instructions.length ∧
      lowered.unit.listing.toList.splitOn '\n' =
        List.zipWith (fun i record => (if i.isLabel then "" else "    ").toList ++ record.text.toList)
          lowered.unit.instructions lowered.unit.records ++ [[]] := by
  obtain ⟨statements, state, run⟩ := compile_eq_ok_iff.mp h
  have visible : ∀ line ∈ lowered.unit.instructions.map lowered.unit.lineText,
      ∀ c ∈ line, IsVisible c :=
    List.forall_mem_map.mpr fun i mem => CodeUnit.visible_lineText (run.visible_render i mem)
  rw [CodeUnit.toList_listing]
  refine ⟨fun c mem => ?_, by simp [CodeUnit.records], ?_⟩
  · obtain ⟨line, isLine, mem⟩ := List.mem_flatMap.mp mem
    rcases List.mem_append.mp mem with mem | mem
    · exact .inr (visible line isLine c mem)
    · exact .inl (List.mem_singleton.mp mem)
  · rw [splitOn_terminated fun line isLine mem => (visible line isLine _ mem).ne_newline rfl,
      CodeUnit.records, List.zipWith_map_right, List.zipWith_self]
    rfl

/-- A letter beyond ASCII and a line end within a literal, and a tab in a key. -/
def hiddenText : String := "L:\nset $S0, \"é\n\"\nset $P0[\"\\t\";0], $P1\nbranch L\n"

theorem listing_lines_of_hiddenText : ∃ lowered, compile .builtIn {} hiddenText = .ok lowered ∧
    lowered.unit.records.map (·.text) =
      ["L:", "set $S0, \"\\u\x7be9\x7d\\n\"", "set $P0[\"\\t\";0], $P1", "branch L"] ∧
    (∀ c ∈ lowered.unit.listing.toList, c = '\n' ∨ ' ' ≤ c ∧ c ≤ '~') ∧
    lowered.unit.listing.toList.splitOn '\n' =
      List.zipWith (fun i record => (if i.isLabel then "" else "    ").toList ++ record.text.toList)
        lowered.unit.instructions lowered.unit.records ++ [[]] := by
  obtain ⟨lowered, compiled, texts⟩ : ∃ lowered, compile .builtIn {} hiddenText = .ok lowered ∧
      lowered.unit.records.map (·.text) =
        ["L:", "set $S0, \"\\u\x7be9\x7d\\n\"", "set $P0[\"\\t\";0], $P1", "branch L"] :=
    map_eq_ok.mp (by decide +kernel)
  obtain ⟨visible, _, lines⟩ := listing_lines_are_records compiled
  exact ⟨lowered, compiled, texts, visible, lines⟩

end Lines
end OpSelect
