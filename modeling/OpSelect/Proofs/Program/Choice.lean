import OpSelect.Proofs.Program.Lines

/-!
Which alternative of the grammar takes a line. The first that fits is taken, so a form is read if
all forms before it fail on its tokens. Operands may be written in more than one way; what is said
here of instructions holds of every `OperandStyle`.
-/

namespace OpSelect

open Reader

/-- The spelling of an atom is one of the ways to write it. -/
theorem Atom.written_spell (a : Atom) : a.Written a.spell := by
  cases a with
  | integer value =>
      rw [spell]
      by_cases negative : value < 0
      · have written := Atom.Written.negative value.natAbs
        rw [if_pos negative]
        rwa [show -(value.natAbs : Int) = value by omega] at written
      · have written := Atom.Written.integer value.natAbs
        rw [if_neg negative]
        rwa [show (value.natAbs : Int) = value by omega] at written
  | float text =>
      rw [spell]
      split
      · rename_i magnitude negative
        have written := Atom.Written.negativeFloat (String.ofList magnitude)
        rwa [show "-" ++ String.ofList magnitude = text by
          rw [← String.toList_inj, negative]; simp] at written
      · exact .float text
  | string value => exact .string value
  | register name => exact .register name
  | word name => exact .word name
  | typeName name => exact .typeName name

/-- An atom begins with a minus sign or with no mark at all. -/
theorem Atom.head_spell {m : Mark} {rest : List TokenKind} (a : Atom) (h : m ≠ .minus) :
    (a.spell ++ rest).head? ≠ some (.mark m) := by
  have written := a.written_spell
  generalize a.spell = kinds at written
  cases written <;> simp [h.symm]

theorem Atom.newline_not_mem (a : Atom) : .newline ∉ a.spell := by
  have written := a.written_spell
  generalize a.spell = kinds at written
  cases written <;> simp

/-- No atom begins with these tokens. -/
def NoAtom (kinds : List TokenKind) : Prop :=
  ∀ kind ∈ kinds.head?, ∃ m, kind = .mark m ∧ m ≠ .minus

theorem noAtom_mark {m : Mark} {rest : List TokenKind} (h : m ≠ .minus) :
    NoAtom (.mark m :: rest) := by
  rintro _ ⟨⟩
  exact ⟨m, rfl, h⟩

/-- At the end of the input nothing can be read. -/
theorem Reader.fails_nil {α : Type} (p : Reader α) : p.Fails [] := by
  rintro ⟨stop, tokens⟩ here
  cases List.map_eq_nil_iff.mp here
  exact p.result_of_end stop

namespace Grammar

variable {kinds rest : List TokenKind}

section Operands

theorem fails_unsignedAtom {m : Mark} : unsignedAtom.Fails (.mark m :: rest) := by
  apply fails_accept
  rintro _ ⟨⟩
  rfl

theorem finds_atom {a : Atom} (written : a.Written kinds) :
    atom.Finds (kinds ++ rest) rest (· = a) := by
  cases written with
  | negative value | negativeFloat text =>
      exact fails_unsignedAtom.orElse_finds (finds_token.right (finds_accept rfl))
  | integer | float | string | register | word | typeName => exact Finds.orElse (finds_accept rfl)

theorem fails_atom (h : NoAtom kinds) : atom.Fails kinds := by
  refine Fails.orElse (fails_accept fun kind mem => ?_) (fails_token ?_).andThen.map
  · obtain ⟨m, rfl, _⟩ := h kind mem
    rfl
  · intro minus
    obtain ⟨m, same, other⟩ := h _ minus
    cases same
    exact other rfl

theorem fails_operand (h : atom.Fails kinds) : operand.Fails kinds := h.followedBy.map.located

/-- The tokens of keys in one pair of brackets. -/
def groupKinds (keys : List Atom) : List TokenKind :=
  .mark .openBracket ::
    ([.mark .semicolon].intercalate (keys.map Atom.spell) ++ [.mark .closeBracket])

theorem newline_not_mem_groupKinds (keys : List Atom) : .newline ∉ groupKinds keys := by
  have inside : TokenKind.newline ∉ [TokenKind.mark .semicolon].intercalate (keys.map Atom.spell) :=
    not_mem_intercalate (by simp) (by simpa using fun a _ => a.newline_not_mem)
  simp [groupKinds, inside]

theorem finds_keyGroup {keys : List (Located Atom)} (written : KeyGroup keys kinds) :
    keyGroup.Finds (kinds ++ rest) rest
      fun parts => parts.map Located.node = keys.map Located.node := by
  obtain ⟨inside, rfl, separated⟩ := written
  have parts : (atom.located.separatedBy (mark .semicolon)).Finds
      (inside ++ .mark .closeBracket :: rest) (.mark .closeBracket :: rest)
      (List.Forall₂ (fun (key part : Located Atom) => part.node = key.node) keys) :=
    finds_separated (fun _ => True) separated (fun _ _ written _ _ => (finds_atom written).located)
      (fun _ => trivial) trivial (by simp)
  have group : keyGroup.Finds _ rest _ := (finds_token.right parts).left finds_token
  simp only [List.cons_append, List.append_assoc]
  exact group.mono fun _ related => map_eq_of_forall₂ (List.forall₂_map_left_iff.mpr related)

/-- All groups of keys are read, up to something else. -/
theorem sweeps_keyGroups {groups : List (List (Located Atom))}
    (written : Each KeyGroup groups kinds) (follows : rest.head? ≠ some (.mark .openBracket)) :
    keyGroup.many.Sweeps (kinds ++ rest) rest
      fun found => found.flatten.map Located.node = groups.flatten.map Located.node := by
  have swept : keyGroup.many.Sweeps (kinds ++ rest) rest (List.Forall₂
      (fun keys parts => parts.map Located.node = keys.map Located.node) groups) :=
    sweeps_each (fun _ => True) written (fun _ _ written _ _ => finds_keyGroup written)
      (fun _ _ _ _ => trivial) trivial (fails_token follows).andThen.map.andThen.map
  intro c here
  obtain ⟨ends, related⟩ := swept c here
  have same := congrArg List.flatten (map_eq_of_forall₂ (List.forall₂_map_left_iff.mpr related))
  rw [← List.map_flatten, ← List.map_flatten] at same
  exact ⟨ends, same⟩

/-- Keys at no place of the text. -/
def unplacedKeys (keys : List Atom) : List (Located Atom) := keys.map (⟨·, ⟨0, 0⟩⟩)

theorem keyGroup_groupKinds {keys : List Atom} (nonempty : keys ≠ []) :
    KeyGroup (unplacedKeys keys) (groupKinds keys) := by
  refine ⟨_, rfl, ?_⟩
  cases keys with
  | nil => exact absurd rfl nonempty
  | cons key keys =>
      refine ⟨key.spell, keys.flatMap fun other => .mark .semicolon :: other.spell, ?_,
        key.written_spell, ?_⟩
      · rw [List.map_cons, intercalate_cons, List.flatMap_map]
        rfl
      · clear nonempty
        induction keys with
        | nil => exact .nil
        | cons other keys ih => exact .cons ⟨_, rfl, other.written_spell⟩ ih

theorem each_groupKinds {groups : List (List Atom)} (nonempty : [] ∉ groups) :
    Each KeyGroup (groups.map unplacedKeys) (groups.flatMap groupKinds) := by
  induction groups with
  | nil => exact .nil
  | cons keys groups ih =>
      obtain ⟨first, others⟩ := not_or.mp (mt List.mem_cons.mpr nonempty)
      exact .cons (keyGroup_groupKinds (Ne.symm first)) (ih others)

/-- An operand is an atom with groups of keys. -/
theorem finds_operand_of_atom {front : List TokenKind} {P : Atom → Prop}
    {groups : List (List Atom)} (nonempty : [] ∉ groups)
    (follows : rest.head? ≠ some (.mark .openBracket))
    (base : atom.Finds (front ++ (groups.flatMap groupKinds ++ rest))
      (groups.flatMap groupKinds ++ rest) P) :
    operand.Finds (front ++ (groups.flatMap groupKinds ++ rest)) rest
      fun o => P o.node.base ∧ o.node.keys.map Located.node = groups.flatten := by
  have swept := sweeps_keyGroups (each_groupKinds nonempty) follows
  have flat : (groups.map unplacedKeys).flatten.map Located.node = groups.flatten := by
    simp [unplacedKeys, List.map_flatten, Function.comp_def]
  unfold operand
  refine Finds.located (P := fun o : Operand =>
    P o.base ∧ o.keys.map Located.node = groups.flatten) ?_
  refine (base.followedBy swept).map ?_
  rintro ⟨a, found⟩ ⟨holds, same⟩
  exact ⟨holds, same.trans flat⟩

/-- However its keys are grouped, an operand has them in order. -/
theorem finds_operand (base : Atom) {groups : List (List Atom)} (nonempty : [] ∉ groups)
    (follows : rest.head? ≠ some (.mark .openBracket)) :
    operand.Finds (base.spell ++ (groups.flatMap groupKinds ++ rest)) rest
      fun o => o.node.base = base ∧ o.node.keys.map Located.node = groups.flatten :=
  finds_operand_of_atom nonempty follows (finds_atom base.written_spell)

end Operands

section Words

theorem finds_name (text : String) : name.Finds (.word text :: rest) rest (· = text) :=
  finds_accept rfl

theorem fails_name (h : ∀ text, kinds.head? ≠ some (.word text)) : name.Fails kinds := by
  refine fails_accept fun kind mem => ?_
  split
  · rename_i text
    exact absurd mem (h text)
  · rfl

/-- A token that must be followed by a name. -/
theorem fails_token_name {kind : TokenKind} (h : ∀ text more, kinds ≠ kind :: .word text :: more) :
    ((token kind).right name).Fails kinds := by
  cases kinds with
  | nil => exact fails_nil _
  | cons first more =>
      by_cases same : first = kind
      · rw [same]
        refine (Finds.andThen_fails finds_token (fails_name ?_)).map
        intro text next
        obtain ⟨later, rfl⟩ := List.head?_eq_some_iff.mp next
        exact h text later (by rw [same])
      · exact (fails_token (by simpa using same)).andThen.map

theorem mnemonicKind_cases (text : String) :
    mnemonicKind text = .word text ∨
      ∃ m ∈ [Mark.ifWord, .unlessWord, .newWord], mnemonicKind text = .mark m := by
  unfold mnemonicKind
  split
  · exact .inr ⟨.ifWord, by decide, rfl⟩
  · exact .inr ⟨.unlessWord, by decide, rfl⟩
  · exact .inr ⟨.newWord, by decide, rfl⟩
  · exact .inl rfl

theorem finds_mnemonic (text : String) :
    mnemonic.Finds (mnemonicKind text :: rest) rest (· = text) := by
  have found (m : Mark) (text : String) :
      ((mark m).map fun _ => text).Finds (.mark m :: rest) rest (· = text) :=
    finds_token.map fun _ _ => rfl
  have skip (m other : Mark) (text : String) (h : m ≠ other) :
      ((mark other).map fun _ => text).Fails (.mark m :: rest) :=
    (fails_token (by simpa using h)).map
  have noName (m : Mark) : name.Fails (.mark m :: rest) := fails_name (by simp)
  unfold mnemonic mnemonicKind
  split
  · exact (noName .ifWord).orElse_finds (found .ifWord "if").orElse
  · refine (noName .unlessWord).orElse_finds ((skip _ .ifWord _ (by decide)).orElse_finds ?_)
    exact (found .unlessWord "unless").orElse
  · refine (noName .newWord).orElse_finds ((skip _ .ifWord _ (by decide)).orElse_finds ?_)
    exact (skip _ .unlessWord _ (by decide)).orElse_finds (found .newWord "new")
  · exact (finds_name _).orElse

end Words

section Statements

variable {P : Statement → Prop}

/-- Anything but `if` and `unless` begins no conditional. -/
theorem fails_conditional (if_ : kinds.head? ≠ some (.mark .ifWord))
    (unless_ : kinds.head? ≠ some (.mark .unlessWord)) : conditional.Fails kinds := by
  unfold conditional
  refine (Fails.orElse ?_ ?_).andThen.andThen.map.andThen.map
  · exact (fails_token if_).map
  · exact (fails_token unless_).map

/-- The tokens that, with a name after them, begin a statement of their own. -/
def openers : List TokenKind :=
  [.directive "sub", .directive "local", .mark .gotoWord, .word "call"]

/-- An assignment or an instruction is what is left when nothing else fits. -/
theorem finds_statement (ended : kinds.head? ≠ some (.directive "end"))
    (unopened : ∀ opener ∈ openers, ∀ text more, kinds ≠ opener :: .word text :: more)
    (unconditional : conditional.Fails kinds)
    (found : (((operand.left (mark .equals)).andThen value).map (fun (target, source) =>
      Statement.assign target source) <|> instruction).Finds kinds rest P) :
    statement.Finds kinds rest P := by
  have fails (opener : TokenKind) (mem : opener ∈ openers) :
      ((token opener).right name).Fails kinds := fails_token_name (unopened opener mem)
  unfold statement
  refine (fails (.directive "sub") (by decide)).map.orElse_finds ?_
  refine (fails_token ended).map.orElse_finds ?_
  refine (fails (.directive "local") (by decide)).andThen.map.orElse_finds ?_
  refine (fails (.mark .gotoWord) (by decide)).map.orElse_finds ?_
  refine unconditional.orElse_finds ?_
  exact (fails (.word "call") (by decide)).map.orElse_finds found

/-- A statement without a label before it. -/
theorem finds_labelled (unlabelled : ∀ text more, kinds ≠ .word text :: .mark .colon :: more)
    (found : statement.Finds kinds rest P) :
    labelled.Finds kinds rest fun found => ∃ s, found = [s] ∧ P s.node := by
  have fails : (name.left (mark .colon)).Fails kinds := by
    cases kinds with
    | nil => exact fails_nil _
    | cons first more =>
        by_cases isWord : ∃ text, first = .word text
        · obtain ⟨text, rfl⟩ := isWord
          refine (Finds.andThen_fails (finds_name text) (fails_token ?_)).map
          intro next
          obtain ⟨later, rfl⟩ := List.head?_eq_some_iff.mp next
          exact unlabelled text later rfl
        · refine (fails_name ?_).andThen.map
          intro text same
          exact isWord ⟨text, Option.some.inj same⟩
  refine fails.map.located.followedBy.map.orElse_finds ?_
  exact found.located.map fun s holds => ⟨s, rfl, holds⟩

/-- A label stands alone on its line. -/
theorem finds_label (text : String) :
    labelled.Finds [.word text, .mark .colon] [] fun found =>
      ∃ s, found = [s] ∧ s.node = .label text := by
  have label : ((name.left (mark .colon)).map Statement.label).Finds
      [.word text, .mark .colon] [] (· = .label text) :=
    ((finds_name text).left finds_token).map fun _ same => congrArg _ same
  refine Finds.orElse ((label.located.followedBy (fails_nil _).optional).map ?_)
  rintro ⟨s, others⟩ ⟨isLabel, rfl⟩
  exact ⟨s, rfl, isLabel⟩

end Statements

section Instructions

variable {γ : Type} {spell : γ → List TokenKind} {R : γ → Located Operand → Prop}

/-- A way of writing operands: they begin like atoms, and are read as what they are related to. -/
structure OperandStyle (spell : γ → List TokenKind) (R : γ → Located Operand → Prop) : Prop where
  head : ∀ item rest m, m ≠ .minus → (spell item ++ rest).head? ≠ some (.mark m)
  finds : ∀ item rest, rest.head? ≠ some (.mark .openBracket) →
    operand.Finds (spell item ++ rest) rest (R item)

/-- The tokens of operands with commas between them. -/
def operandKinds (spell : γ → List TokenKind) (items : List γ) : List TokenKind :=
  [.mark .comma].intercalate (items.map spell)

theorem operandKinds_cons (spell : γ → List TokenKind) (item : γ) (items : List γ) :
    operandKinds spell (item :: items) =
      spell item ++ items.flatMap fun other => .mark .comma :: spell other := by
  rw [operandKinds, List.map_cons, intercalate_cons, List.flatMap_map]
  rfl

/-- What follows an operand is a comma or the end of the line. -/
theorem head_operands {m : Mark} (spell : γ → List TokenKind) (items : List γ) (h : m ≠ .comma) :
    (items.flatMap fun other => .mark .comma :: spell other).head? ≠ some (.mark m) := by
  cases items with
  | nil => exact nofun
  | cons item items =>
      rw [List.flatMap_cons]
      intro same
      cases same
      exact h rfl

theorem newline_not_mem_operation (text : String) {items : List γ}
    (each : ∀ item ∈ items, .newline ∉ spell item) :
    .newline ∉ mnemonicKind text :: operandKinds spell items := by
  have operands : .newline ∉ operandKinds spell items :=
    not_mem_intercalate (by simp) (by simpa using each)
  refine List.not_mem_cons_of_ne_of_not_mem ?_ operands
  cases mnemonicKind_cases text with
  | inl isWord => simp [isWord]
  | inr marked =>
      obtain ⟨m, _, isMark⟩ := marked
      simp [isMark]

namespace OperandStyle

variable (style : OperandStyle spell R)

include style

/-- What follows a mnemonic. -/
theorem head_operandKinds {m : Mark} (items : List γ) (h : m ≠ .minus) :
    (operandKinds spell items).head? ≠ some (.mark m) := by
  cases items with
  | nil => exact nofun
  | cons item items =>
      rw [operandKinds_cons]
      exact style.head item _ m h

theorem finds_operands (item : γ) (items : List γ) :
    (operand.separatedBy (mark .comma)).Finds (operandKinds spell (item :: items)) []
      (List.Forall₂ R (item :: items)) := by
  rw [operandKinds_cons, ← List.append_nil (spell item ++ _)]
  exact finds_separatedBy (fun more => more.head? ≠ some (.mark .openBracket))
    (fun other _ more follows => style.finds other more follows) (by simp) (by simp) (by simp)

/-- The operands of an instruction, of which there may be none. -/
theorem finds_instruction (text : String) (items : List γ) :
    instruction.Finds (mnemonicKind text :: operandKinds spell items) [] fun s =>
      ∃ operands, s = .instruction text operands ∧ List.Forall₂ R items operands := by
  have named : mnemonic.Finds (mnemonicKind text :: operandKinds spell items)
      (operandKinds spell items) (· = text) := finds_mnemonic text
  unfold instruction
  cases items with
  | nil =>
      refine (named.followedBy (fails_nil _).optional).map ?_
      rintro ⟨op, operands⟩ ⟨rfl, rfl⟩
      exact ⟨[], rfl, .nil⟩
  | cons item items =>
      refine (named.followedBy (style.finds_operands item items).optional).map ?_
      rintro ⟨op, operands⟩ ⟨rfl, operands, rfl, related⟩
      exact ⟨operands, rfl, related⟩

/-- A test without a jump is no conditional. -/
theorem fails_conditional_of_test {kind : TokenKind} (items : List γ)
    (test : ((mark .ifWord).map (fun _ => false) <|> (mark .unlessWord).map fun _ => true).Finds
      (kind :: operandKinds spell items) (operandKinds spell items) fun _ => True) :
    conditional.Fails (kind :: operandKinds spell items) := by
  unfold conditional
  cases items with
  | nil => exact (test.andThen_fails (fails_nil _)).andThen.map.andThen.map
  | cons item items =>
      rw [operandKinds_cons] at test ⊢
      have first := style.finds item _ (head_operands spell items (by decide))
      have unrelated :
          relation.Fails (items.flatMap fun other => .mark .comma :: spell other) := by
        refine fails_accept fun kind mem => ?_
        cases items with
        | nil => cases mem
        | cons other items =>
            cases mem
            rfl
      have truth : condition.Finds
          (spell item ++ items.flatMap fun other => .mark .comma :: spell other)
          (items.flatMap fun other => .mark .comma :: spell other) fun _ => True :=
        (first.andThen_fails unrelated).andThen.map.orElse_finds (first.map fun _ _ => trivial)
      have goto := fails_token (head_operands spell items (m := .gotoWord) (by decide))
      exact ((test.andThen truth).andThen_fails goto).map.andThen.map

/-- An instruction is read as one, unless it looks like a call of a label. -/
theorem finds_operation (text : String) (items : List γ)
    (uncalled : ∀ label more, mnemonicKind text :: operandKinds spell items ≠
      .word "call" :: .word label :: more) :
    statement.Finds (mnemonicKind text :: operandKinds spell items) [] fun s =>
      ∃ operands, s = .instruction text operands ∧ List.Forall₂ R items operands := by
  have found := style.finds_instruction text items
  cases mnemonicKind_cases text with
  | inl isWord =>
      rw [isWord] at found uncalled ⊢
      have target : operand.Finds (.word text :: operandKinds spell items)
          (operandKinds spell items) fun _ => True :=
        (finds_operand (.word text) List.not_mem_nil
          (style.head_operandKinds items (by decide))).mono fun _ _ => trivial
      have unequal := fails_token (style.head_operandKinds items (m := .equals) (by decide))
      refine finds_statement (by simp) ?_ (fails_conditional (by simp) (by simp)) ?_
      · intro opener mem label more same
        obtain ⟨rfl, next⟩ := List.cons.inj same
        obtain rfl : text = "call" := by simpa [openers] using mem
        exact uncalled label more same
      · exact (target.andThen_fails unequal).map.andThen.map.orElse_finds found
  | inr marked =>
      obtain ⟨m, keyword, isMark⟩ := marked
      rw [isMark] at found ⊢
      have unconditional : conditional.Fails (.mark m :: operandKinds spell items) := by
        simp only [List.mem_cons, List.not_mem_nil, or_false] at keyword
        rcases keyword with rfl | rfl | rfl
        · exact style.fails_conditional_of_test items (finds_token.map fun _ _ => trivial).orElse
        · refine style.fails_conditional_of_test items (Fails.orElse_finds ?_ ?_)
          · exact (fails_token (by simp)).map
          · exact finds_token.map fun _ _ => trivial
        · exact fails_conditional (by simp) (by simp)
      have untargeted : operand.Fails (.mark m :: operandKinds spell items) := by
        refine fails_operand (fails_atom (noAtom_mark ?_))
        rintro rfl
        exact absurd keyword (by decide)
      refine finds_statement (by simp) ?_ unconditional ?_
      · intro opener mem label more same
        obtain ⟨rfl, _⟩ := List.cons.inj same
        obtain rfl : m = .gotoWord := by simpa [openers] using mem
        exact absurd keyword (by decide)
      · exact untargeted.andThen.map.andThen.map.orElse_finds found

end OperandStyle
end Instructions

section Files

variable {segment tokens : List Token} {found : List (Located Statement)}
  {P : List (Located Statement) → Prop}

theorem finds_lineStatements (h : labelled.Finds (segment.map Token.kind) [] P) :
    ∃ found, lineStatements? segment = some found ∧ P found := by
  obtain ⟨found, d, result, ends, holds⟩ := h ⟨0, segment⟩ rfl
  have ended : d.rest = [] := List.map_eq_nil_iff.mp ends
  refine ⟨found, ?_, holds⟩
  rw [lineStatements?, line_result, result]
  simp [Option.filter, lineEnd, ended]

/-- A line that is read says what was found in it, however far that goes. -/
theorem of_lineStatements (h : labelled.Finds (segment.map Token.kind) rest P)
    (read : lineStatements? segment = some found) : P found := by
  obtain ⟨first, d, result, _, holds⟩ := h ⟨0, segment⟩ rfl
  obtain ⟨⟨_, e⟩, kept, rfl⟩ := Option.map_eq_some_iff.mp read
  rw [line_result, result] at kept
  obtain ⟨same, _⟩ := Option.filter_eq_some_iff.mp kept
  cases same
  exact holds

variable {γ : Type} {spell : γ → List TokenKind} {R : γ → Located Statement → Prop}
  {items : List γ} (written : (lineTokens tokens).map (List.map Token.kind) = items.map spell)

include written

/-- A file of lines that are read whole, each as one statement. -/
theorem parseTokens_of_lines
    (each : ∀ item ∈ items, labelled.Finds (spell item) [] fun found =>
      ∃ s, found = [s] ∧ R item s) :
    ∃ statements, parseTokens tokens = .ok statements ∧ List.Forall₂ R items statements := by
  have parts : ∃ parts, List.Forall₂ (fun segment part => lineStatements? segment = some part)
      (lineTokens tokens) parts ∧ List.Forall₂ R items parts.flatten := by
    generalize lineTokens tokens = segments at written
    induction items generalizing segments with
    | nil =>
        rw [List.map_eq_nil_iff.mp written]
        exact ⟨[], .nil, .nil⟩
    | cons item items ih =>
        obtain ⟨segment, segments, rfl, kinds, later⟩ := List.map_eq_cons_iff.mp written
        obtain ⟨first, others⟩ := List.forall_mem_cons.mp each
        rw [← kinds] at first
        obtain ⟨_, read, s, rfl, related⟩ := finds_lineStatements first
        obtain ⟨parts, reads, all⟩ := ih others segments later
        exact ⟨[s] :: parts, .cons read reads, .cons related all⟩
  obtain ⟨parts, reads, all⟩ := parts
  exact ⟨parts.flatten, parseTokens_eq_ok_lines.mpr ⟨parts, reads, rfl⟩, all⟩

/-- Where a file is read, each of its lines was. -/
theorem forall₂_of_parseTokens {statements : List (Located Statement)}
    (each : ∀ item ∈ items, ∃ rest, labelled.Finds (spell item) rest fun found =>
      ∃ s, found = [s] ∧ R item s)
    (parsed : parseTokens tokens = .ok statements) : List.Forall₂ R items statements := by
  obtain ⟨parts, reads, rfl⟩ := parseTokens_eq_ok_lines.mp parsed
  clear parsed
  generalize lineTokens tokens = segments at written reads
  induction items generalizing segments parts with
  | nil =>
      rw [List.map_eq_nil_iff.mp written] at reads
      cases reads
      exact .nil
  | cons item items ih =>
      obtain ⟨segment, segments, rfl, kinds, later⟩ := List.map_eq_cons_iff.mp written
      obtain ⟨⟨rest, first⟩, others⟩ := List.forall_mem_cons.mp each
      rw [← kinds] at first
      cases reads with
      | cons read reads =>
          obtain ⟨s, rfl, related⟩ := of_lineStatements first read
          exact .cons related (ih others _ _ later reads)

end Files
end Grammar
end OpSelect
