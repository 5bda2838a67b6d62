import OpSelect.Proofs.Lowering.Naming
import OpSelect.Proofs.Lowering.Operation
import OpSelect.Proofs.Selector.Rendering
import OpSelect.Proofs.Token.Quoting

/-!
The text of a listing. `Symbol.ReadAs` says which symbols a listing shows so that they can be read
back, and as which atom. A line whose operands are of this kind is cut into just the tokens of its
atoms, marks and mnemonic.
-/

namespace OpSelect

/-- A name that is read as such and not as a keyword. -/
structure IsName (name : String) : Prop where
  word : name.toList ∈ Pattern.language .word
  ordinary : ∀ m : Mark, name ≠ m.text

/-- A name that is a label wherever it is not declared otherwise. -/
structure IsLabel (name : String) : Prop where
  isName : IsName name
  ordinary : machineRegister? name = none

/-- The atom that a symbol is read back as, where these are the labels. -/
inductive Symbol.ReadAs (labels : List String) : Symbol → Atom → Prop where
  | integer (value : Int) (fits : value.natAbs ≤ maxInteger) :
      ReadAs labels ⟨toString value, .integer, .constant⟩ (.integer value)
  | float (text : String) (isFloat : text.toList ∈ Pattern.language .float) :
      ReadAs labels ⟨text, .float, .constant⟩ (.float text)
  | negativeFloat (text : String) (isFloat : text.toList ∈ Pattern.language .float) :
      ReadAs labels ⟨"-" ++ text, .float, .constant⟩ (.float ("-" ++ text))
  | string (value : String) (printable : ∀ c ∈ value.toList, isPrintable c = true) :
      ReadAs labels ⟨value, .string, .constant⟩ (.string value)
  | register (name : String) (cls : ValueClass)
      (isRegister : name.toList ∈ Pattern.language .register)
      (ofClass : registerClass? name = some cls) :
      ReadAs labels ⟨name, cls, .var⟩ (.register name)
  | machine (cls : ValueClass) (index : Nat) (small : index < 256) :
      ReadAs labels ⟨cls.machineRegister index, cls, .machineRegister index⟩
        (.word (cls.machineRegister index))
  | label (name : String) (mem : name ∈ labels) (isLabel : IsLabel name) :
      ReadAs labels ⟨name, .integer, .address⟩ (.word name)

/-- The keys that a key symbol is read back as. -/
inductive Symbol.KeyReadAs (labels : List String) : Symbol → List Atom → Prop where
  | lone {s : Symbol} {a : Atom} (h : s.ReadAs labels a) : KeyReadAs labels s [a]
  | chain {parts : List Symbol} {atoms : List Atom} (several : 2 ≤ parts.length)
      (each : List.Forall₂ (Symbol.ReadAs labels) parts atoms) :
      KeyReadAs labels (Symbol.join parts) atoms

/-- An operand without its places in the text. -/
structure Item where
  base : Atom
  keys : List Atom := []
deriving DecidableEq, Repr

/-- The tokens of an item. Several keys share their brackets. -/
def Item.kinds (item : Item) : List TokenKind :=
  match item.keys with
  | [] => item.base.spell
  | keys => item.base.spell ++
      .mark .openBracket ::
        ([.mark .semicolon].intercalate (keys.map Atom.spell) ++ [.mark .closeBracket])

/-- A line of a listing: a label, or a mnemonic and its operands. -/
inductive Line where
  | label (name : String)
  | operation (mnemonic : String) (items : List Item)
deriving DecidableEq, Repr

def Line.kinds : Line → List TokenKind
  | .label name => [.word name, .mark .colon]
  | .operation mnemonic items =>
      mnemonicKind mnemonic :: [.mark .comma].intercalate (items.map Item.kinds)

/-- The item that the slot is read back as. -/
inductive Slot.ReadAs (labels : List String) (t : SymbolTable) : Slot → Item → Prop where
  | plain {id : SymbolId} {a : Atom} (h : (t.get id).ReadAs labels a) :
      ReadAs labels t (.plain id) ⟨a, []⟩
  | keyed {container key : SymbolId} {a : Atom} {keys : List Atom}
      (base : (t.get container).ReadAs labels a) (chain : (t.get key).KeyReadAs labels keys) :
      ReadAs labels t (.keyed container key) ⟨a, keys⟩

/-- Names that an operation can begin with. -/
def IsMnemonic (name : String) : Prop :=
  IsName name ∧ name ≠ "call" ∨ name ∈ ["if", "unless", "new"]

/-- The line that the instruction is read back as. -/
inductive Instruction.ReadAs (labels : List String) (t : SymbolTable) :
    Instruction → Line → Prop where
  | label {name : String} {id : SymbolId} (isLabel : IsLabel name) :
      ReadAs labels t (.label name id) (.label name)
  | operation {i : Instruction} {slots : List Slot} {items : List Item}
      (unlabelled : i.isLabel = false) (isMnemonic : IsMnemonic i.mnemonic)
      (spelled : i.spelling = Slot.spelling i.mnemonic slots)
      (layout : i.layout = slots.map Slot.shape)
      (each : List.Forall₂ (Slot.ReadAs labels t) slots items) :
      ReadAs labels t i (.operation i.mnemonic items)

section Printed

variable {labels : List String}

/-- The text begins with something other than a blank or the end of a line. -/
def Opened (text : List Char) : Prop :=
  ∃ c more, text = c :: more ∧ isLayout c = false ∧ c ≠ '\n'

theorem Opened.append {text : List Char} (h : Opened text) (rest : List Char) :
    Opened (text ++ rest) := by
  obtain ⟨c, more, rfl, layout, line⟩ := h
  exact ⟨c, more ++ rest, rfl, layout, line⟩

/-- The text is cut into these tokens wherever a delimiter follows. -/
structure Printed (text : List Char) (kinds : List TokenKind) : Prop where
  opened : Opened text
  yields : ∀ rest, Delimited rest → Yields text kinds rest

theorem delimited_cons {c : Char} (h : c ∈ delimiters) (rest : List Char) :
    Delimited (c :: rest) := by
  intro d mem
  cases mem
  exact h

theorem opened_of_mem {p : Pattern} {text : List Char} (h : text ∈ p.language)
    (lead : p.lead ≠ .layout ∧ p.lead ≠ .newline) : Opened text := by
  cases text with
  | nil => exact absurd h (Pattern.nil_not_mem p)
  | cons c more =>
      have isLead := Pattern.lead_of_mem h
      refine ⟨c, more, rfl, ?_, ?_⟩
      · by_contra blank
        rw [Lead.of_isLayout (by simpa using blank)] at isLead
        exact lead.1 isLead.symm
      · rintro rfl
        exact lead.2 isLead.symm

theorem printed_name {name : String} (h : IsName name) : Printed name.toList [.word name] :=
  ⟨opened_of_mem h.word (by decide), fun _ => yields_word h.word h.ordinary⟩

theorem printed_natural {n : Nat} (fits : n ≤ maxInteger) :
    Printed (toString n).toList [.integer n] := by
  refine ⟨?_, fun _ => yields_integer fits⟩
  have text : (toString n).toList = Nat.toDigits 10 n := Nat.toList_repr
  obtain ⟨c, more, digits⟩ := List.exists_cons_of_ne_nil (Nat.toDigits_ne_nil (n := n) (b := 10))
  have isDigit : c.isDigit = true := Nat.isDigit_of_mem_toDigits (b := 10) (n := n) (by decide)
    (by decide) (by rw [digits]; exact List.mem_cons_self)
  refine ⟨c, more, text.trans digits, ?_, ?_⟩
  · by_contra blank
    have isLead := Lead.of_isLayout (by simpa using blank)
    rw [Lead.of_isDigit isDigit] at isLead
    cases isLead
  · rintro rfl
    cases isDigit

/-- A sign before a number. -/
theorem Printed.minus {text : List Char} {kinds : List TokenKind} (h : Printed text kinds) :
    Printed ('-' :: text) (.mark .minus :: kinds) := by
  refine ⟨⟨'-', text, rfl, rfl, by decide⟩, fun rest delimited => ?_⟩
  exact (yields_sign (m := .minus) (by decide) (text ++ rest)).append (h.yields rest delimited)

/-- An integer is shown as the tokens of its atom, of which a negative one has two. -/
theorem printed_integer {value : Int} (fits : value.natAbs ≤ maxInteger) :
    Printed (toString value).toList (Atom.spell (.integer value)) := by
  cases value with
  | ofNat n =>
      have spelling : Atom.spell (.integer (Int.ofNat n)) = [.integer n] := by
        simp [Atom.spell]
      rw [spelling]
      exact printed_natural fits
  | negSucc n =>
      have text : (toString (Int.negSucc n)).toList = '-' :: (toString (n + 1)).toList := by
        have same : toString (Int.negSucc n) = "-" ++ toString (n + 1) := rfl
        rw [same, String.toList_append]
        rfl
      have spelling : Atom.spell (.integer (Int.negSucc n)) =
          [.mark .minus, .integer (n + 1)] := by
        simp [Atom.spell, Int.negSucc_lt_zero]
      rw [text, spelling]
      exact (printed_natural fits).minus

theorem printed_float {text : String} (isFloat : text.toList ∈ Pattern.language .float) :
    Printed text.toList [.float text] :=
  ⟨opened_of_mem isFloat (by decide), fun _ => yields_float isFloat⟩

/-- A text of the pattern has no sign. -/
theorem spell_float {text : String} (isFloat : text.toList ∈ Pattern.language .float) :
    Atom.spell (.float text) = [.float text] := by
  rw [Atom.spell]
  split
  · rename_i signed
    rw [signed] at isFloat
    exact absurd (Pattern.lead_of_mem isFloat) (by decide)
  · rfl

/-- Machine registers are names. -/
theorem isName_machineRegister (cls : ValueClass) (index : Nat) :
    IsName (cls.machineRegister index) := by
  have text := cls.machineRegister_toList index
  constructor
  · rw [text]
    refine Language.mem_mul.mpr
      ⟨[cls.letter], ⟨cls.letter, ?_, rfl⟩, Nat.toDigits 10 index, ?_, rfl⟩
    · cases cls <;> rfl
    · refine mem_kstar_oneOf.mpr fun c mem => isWordChar_of_isDigit ?_
      exact Nat.isDigit_of_mem_toDigits (by decide) (by decide) mem
  · intro m same
    have heads := congrArg List.head? (text.symm.trans (congrArg String.toList same))
    cases cls <;> cases m <;> simp [ValueClass.letter, Mark.text] at heads

/-- A symbol is shown as the tokens of the atom that it is read back as. -/
theorem Symbol.ReadAs.printed {s : Symbol} {a : Atom} (h : s.ReadAs labels a) :
    Printed s.displayText.toList a.spell := by
  cases h with
  | integer value fits => exact printed_integer fits
  | float text isFloat =>
      rw [spell_float isFloat]
      exact printed_float isFloat
  | negativeFloat text isFloat =>
      have shown : (⟨"-" ++ text, .float, .constant⟩ : Symbol).displayText.toList =
          '-' :: text.toList := String.toList_append
      have spelling : Atom.spell (.float ("-" ++ text)) = [.mark .minus, .float text] := by
        simp [Atom.spell]
      rw [shown, spelling]
      exact (printed_float isFloat).minus
  | string value printable =>
      have shown : (⟨value, .string, .constant⟩ : Symbol).displayText.toList =
          '"' :: ((Text.escape value).toList ++ ['"']) := by
        simp [Symbol.displayText]
      rw [shown]
      exact ⟨⟨'"', _, rfl, rfl, by decide⟩, fun rest _ => yields_string printable rest⟩
  | register name cls isRegister ofClass =>
      exact ⟨opened_of_mem isRegister (by decide), fun _ => yields_register isRegister⟩
  | machine cls index small => exact printed_name (isName_machineRegister cls index)
  | label name mem isLabel => exact printed_name isLabel.isName

/-- Printed texts with a separator between them. -/
theorem printed_separated {separator : List Char} {kind : TokenKind}
    (delimits : ∀ rest, Delimited (separator ++ rest))
    (separates : ∀ rest, Opened rest → Yields separator [kind] rest)
    {texts : List (List Char)} {kinds : List (List TokenKind)}
    (each : List.Forall₂ Printed texts kinds) (some : texts ≠ []) :
    Printed (separator.intercalate texts) ([kind].intercalate kinds) := by
  induction each with
  | nil => exact absurd rfl some
  | @cons text kinds texts others first rest ih =>
      cases rest with
      | nil => simpa using first
      | @cons second _ texts others isSecond rest =>
          have tail := ih (by simp)
          rw [List.intercalate_cons_cons, List.intercalate_cons_cons]
          refine ⟨(first.opened.append _).append _, fun rest delimited => ?_⟩
          rw [List.append_assoc, List.append_assoc]
          refine (first.yields _ ?_).append ((separates _ ?_).append (tail.yields rest delimited))
          · rw [List.append_assoc]
            exact delimits _
          · exact tail.opened.append _

theorem Symbol.KeyReadAs.printed {s : Symbol} {keys : List Atom} (h : s.KeyReadAs labels keys) :
    Printed s.displayText.toList ([.mark .semicolon].intercalate (keys.map Atom.spell)) := by
  cases h with
  | lone h => simpa using h.printed
  | @chain parts atoms several each =>
      have shown : (Symbol.join parts).displayText =
          String.intercalate ";" (parts.map Symbol.displayText) := by
        unfold Symbol.join Symbol.displayText
        by_cases constant : parts.all Symbol.isConstant = true
        · simp [constant]
        · simp [constant]
      rw [shown, String.toList_intercalate]
      refine printed_separated (fun _ => delimited_cons (by decide) _)
        (fun rest _ => yields_sign (m := .semicolon) (by decide) rest) ?_ ?_
      · rw [List.map_map, List.forall₂_map_left_iff, List.forall₂_map_right_iff]
        exact each.imp fun _ _ read => read.printed
      · intro none
        have : parts.length = 0 := by simpa using congrArg List.length none
        omega

theorem Symbol.KeyReadAs.ne_nil {s : Symbol} {keys : List Atom} (h : s.KeyReadAs labels keys) :
    keys ≠ [] := by
  rintro rfl
  cases h with
  | chain several each =>
      cases each
      cases several

theorem Slot.ReadAs.printed {t : SymbolTable} {slot : Slot} {item : Item}
    (h : slot.ReadAs labels t item) : Printed (slot.text t).toList item.kinds := by
  cases h with
  | plain h => exact h.printed
  | @keyed container key a keys base chain =>
      have spelling : Item.kinds ⟨a, keys⟩ = a.spell ++ .mark .openBracket ::
          ([.mark .semicolon].intercalate (keys.map Atom.spell) ++ [.mark .closeBracket]) := by
        cases keys with
        | nil => exact absurd rfl chain.ne_nil
        | cons first rest => rfl
      have text : (Slot.text t (.keyed container key)).toList =
          (t.get container).displayText.toList ++
            ('[' :: ((t.get key).displayText.toList ++ [']'])) := by
        simp [Slot.text]
      rw [text, spelling]
      refine ⟨base.printed.opened.append _, fun rest _ => ?_⟩
      refine (base.printed.yields _ (delimited_cons (by decide) _)).append ?_
      refine (yields_sign (m := .openBracket) (by decide) _).append ?_
      exact (chain.printed.yields _ (delimited_cons (by decide) _)).append
        (yields_sign (m := .closeBracket) (by decide) rest)

theorem IsName.mnemonicKind {name : String} (h : IsName name) :
    mnemonicKind name = .word name := by
  unfold OpSelect.mnemonicKind
  split
  · exact absurd rfl (h.ordinary .ifWord)
  · exact absurd rfl (h.ordinary .unlessWord)
  · exact absurd rfl (h.ordinary .newWord)
  · rfl

theorem IsMnemonic.printed {name : String} (h : IsMnemonic name) :
    Printed name.toList [mnemonicKind name] := by
  rcases h with ⟨isName, _⟩ | keyword
  · rw [isName.mnemonicKind]
    exact printed_name isName
  · simp only [List.mem_cons, List.not_mem_nil, or_false] at keyword
    rcases keyword with rfl | rfl | rfl
    · exact ⟨⟨'i', _, rfl, rfl, by decide⟩, fun _ => yields_keyword (m := .ifWord) rfl⟩
    · exact ⟨⟨'u', _, rfl, rfl, by decide⟩, fun _ => yields_keyword (m := .unlessWord) rfl⟩
    · exact ⟨⟨'n', _, rfl, rfl, by decide⟩, fun _ => yields_keyword (m := .newWord) rfl⟩

end Printed

section Lines

variable {labels : List String} {t : SymbolTable} {i : Instruction} {line : Line}

theorem Opened.not_layout {text : List Char} (h : Opened text) :
    ∀ c ∈ text.head?, isLayout c = false := by
  obtain ⟨c, more, rfl, layout, _⟩ := h
  intro d mem
  cases mem
  exact layout

/-- A comma and a blank between operands. -/
theorem yields_comma {rest : List Char} (opened : Opened rest) :
    Yields [',', ' '] [.mark .comma] rest :=
  (yields_sign (m := .comma) (by decide) (' ' :: rest)).append
    (yields_blanks (n := 1) (by decide) opened.not_layout)

/-- The text of an instruction without its blanks and its end. -/
theorem Instruction.ReadAs.printed (h : i.ReadAs labels t line) :
    Printed (i.render t).toList line.kinds := by
  cases h with
  | @label name id isLabel =>
      have printed := printed_name isLabel.isName
      have text : ((Instruction.label name id).render t).toList = name.toList ++ [':'] :=
        String.toList_append
      rw [text]
      refine ⟨printed.opened.append _, fun rest _ => ?_⟩
      exact (printed.yields _ (delimited_cons (by decide) _)).append
        (yields_sign (m := .colon) (by decide) rest)
  | operation unlabelled isMnemonic spelled layout each =>
      have mnemonic := isMnemonic.printed
      have shown := Instruction.render_of_slots unlabelled (congrArg Spelling.operands spelled)
        layout t
      cases each with
      | nil =>
          rw [shown, if_pos rfl]
          exact mnemonic
      | @cons slot item slots items first others =>
          have items : Printed
              ([',', ' '].intercalate (((slot :: slots).map (Slot.text t)).map String.toList))
              ([.mark .comma].intercalate ((item :: items).map Item.kinds)) := by
            refine printed_separated (fun _ => delimited_cons (by decide) _)
              (fun _ => yields_comma) ?_ (by simp)
            rw [List.map_map, List.forall₂_map_left_iff, List.forall₂_map_right_iff]
            exact (List.Forall₂.cons first others).imp fun _ _ read => read.printed
          have text : (i.render t).toList = i.mnemonic.toList ++ ([' '] ++
              [',', ' '].intercalate (((slot :: slots).map (Slot.text t)).map String.toList)) := by
            rw [shown, if_neg (List.cons_ne_nil slot slots), String.toList_append,
              String.toList_append, String.toList_intercalate, List.append_assoc]
            rfl
          rw [text]
          refine ⟨mnemonic.opened.append _, fun rest delimited => ?_⟩
          refine (mnemonic.yields _ ?_).append ?_
          · exact delimited_cons (c := ' ') (by decide) _
          exact (yields_blanks (n := 1) (by decide) (items.opened.append _).not_layout).append
            (items.yields rest delimited)

/-- A whole line is cut into its tokens and a newline, and does not begin with a newline. -/
theorem Instruction.ReadAs.yields {u : CodeUnit} (h : i.ReadAs labels u.symbols line)
    {rest : List Char} (ended : ∀ c ∈ rest.head?, c ≠ '\n') :
    Yields (u.line i).toList (line.kinds ++ [.newline]) rest ∧
      ∀ c ∈ ((u.line i).toList ++ rest).head?, c ≠ '\n' := by
  have body : Yields ((i.render u.symbols).toList ++ ['\n']) (line.kinds ++ [.newline]) rest :=
    (h.printed.yields _ (delimited_cons (by decide) _)).append (yields_newline ended)
  have opened := h.printed.opened.append ['\n']
  by_cases label : i.isLabel = true
  · have text : (u.line i).toList = (i.render u.symbols).toList ++ ['\n'] := by
      simp [CodeUnit.line, label]
    rw [text]
    refine ⟨body, ?_⟩
    obtain ⟨c, more, text, _, line⟩ := opened.append rest
    rw [text]
    intro d mem
    cases mem
    exact line
  · have text : (u.line i).toList =
        List.replicate 4 ' ' ++ ((i.render u.symbols).toList ++ ['\n']) := by
      simp [CodeUnit.line, label]
    rw [text]
    refine ⟨(yields_blanks (by decide) (opened.append rest).not_layout).append body, ?_⟩
    intro d mem
    cases mem
    decide

/-- The tokens of the lines of a listing. -/
def Line.allKinds (lines : List Line) : List TokenKind :=
  lines.flatMap fun line => line.kinds ++ [.newline]

/-- Line by line from the end, for each line must know that the next begins with no newline. -/
theorem yields_lines {u : CodeUnit} {instructions : List Instruction} {lines : List Line}
    (each : List.Forall₂ (Instruction.ReadAs labels u.symbols) instructions lines) :
    Yields (String.join (instructions.map u.line)).toList (Line.allKinds lines) [] ∧
      ∀ c ∈ (String.join (instructions.map u.line)).toList.head?, c ≠ '\n' := by
  induction each with
  | nil => exact ⟨.nil [], by simp⟩
  | @cons i line instructions lines first others ih =>
      obtain ⟨yields, ended⟩ := ih
      have text : (String.join ((i :: instructions).map u.line)).toList =
          (u.line i).toList ++ (String.join (instructions.map u.line)).toList := by
        simp only [String.toList_join, List.map_cons, List.flatMap_cons]
      rw [text]
      obtain ⟨head, open_⟩ := first.yields ended
      refine ⟨?_, open_⟩
      apply Yields.append _ yields
      rwa [List.append_nil]

/-- A listing is cut into the tokens of its lines. -/
theorem CodeUnit.tokenize_listing {u : CodeUnit} {lines : List Line}
    (each : List.Forall₂ (Instruction.ReadAs labels u.symbols) u.instructions lines) :
    ∃ tokens, tokenize u.listing = .ok tokens ∧ tokens.map Token.kind = Line.allKinds lines :=
  (yields_lines each).1.tokenize

end Lines
end OpSelect
