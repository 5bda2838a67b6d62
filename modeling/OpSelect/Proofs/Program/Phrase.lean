import OpSelect.Proofs.Program.Reader
import OpSelect.Program.Grammar

/-!
The phrases of the grammar as relations: which tokens an operand, a value or a statement may be
written with. Readers take what these relations allow. Where an alternative is taken because
an earlier one fails, the relation keeps what later proofs need of this.
-/

namespace OpSelect

open Reader

/-- A minus sign before a number belongs to it. -/
inductive Atom.Written : Atom → List TokenKind → Prop where
  | integer (value : Nat) : Written (.integer value) [.integer value]
  | float (text : String) : Written (.float text) [.float text]
  | string (value : String) : Written (.string value) [.string value]
  | register (name : String) : Written (.register name) [.register name]
  | word (name : String) : Written (.word name) [.word name]
  | typeName (name : String) : Written (.typeName name) [.directive name]
  | negative (value : Nat) : Written (.integer (-value)) [.mark .minus, .integer value]
  | negativeFloat (text : String) :
      Written (.float ("-" ++ text)) [.mark .minus, .float text]

/-- One bracket group, with a semicolon between its keys. -/
def KeyGroup (keys : List (Located Atom)) (taken : List TokenKind) : Prop :=
  ∃ inside, taken = .mark .openBracket :: (inside ++ [.mark .closeBracket]) ∧
    Separated (.mark .semicolon) (fun (key : Located Atom) => key.node.Written) keys inside

/-- The keys of an operand may be grouped in any way. -/
inductive Operand.Written : Operand → List TokenKind → Prop where
  | intro {base : Atom} {groups : List (List (Located Atom))} {first rest : List TokenKind}
      (atom : base.Written first) (keys : Each KeyGroup groups rest) :
      Written ⟨base, groups.flatten⟩ (first ++ rest)

def Relation.mark : Relation → Mark
  | eq => .equalsEquals
  | ne => .notEquals
  | lt => .less
  | le => .lessEquals
  | gt => .greater
  | ge => .greaterEquals

def BinaryOp.mark : BinaryOp → Mark
  | add => .plus
  | sub => .minus
  | mul => .star
  | div => .slash
  | mod => .percent
  | pow => .starStar
  | shl => .shiftLeft
  | shr => .shiftRight
  | lsr => .shiftRightLogical
  | and => .andAnd
  | or => .orOr
  | xor => .tildeTilde
  | bitAnd => .ampersand
  | bitOr => .pipe
  | bitXor => .tilde
  | concat => .dot

def UnaryOp.mark : UnaryOp → Mark
  | not => .bang
  | neg => .minus
  | bitNot => .tilde

/-- Words that, at the start of a value, ask something of the operand after them. -/
def queryWords : List String := ["defined", "clone"]

inductive Value.Written : Value → List TokenKind → Prop where
  | operand {source : Located Operand} {taken : List TokenKind} (h : source.node.Written taken) :
      Written (.operand source) taken
  | binary {op : BinaryOp} {lhs rhs : Located Operand} {left right : List TokenKind}
      (first : lhs.node.Written left) (second : rhs.node.Written right)
      (noQuery : ∀ text ∈ queryWords, ∀ n rest,
        left ++ .mark op.mark :: right ≠ .word text :: .mark .minus :: .integer n :: rest) :
      Written (.binary op lhs rhs) (left ++ .mark op.mark :: right)
  | unary {op : UnaryOp} {source : Located Operand} {taken : List TokenKind}
      (h : source.node.Written taken)
      (noLiteral : ∀ n rest, .mark op.mark :: taken ≠ .mark .minus :: .integer n :: rest) :
      Written (.unary op source) (.mark op.mark :: taken)
  | new {type : Located Atom} {taken : List TokenKind} (h : type.node.Written taken) :
      Written (.new type) (.mark .newWord :: taken)
  | addr (label : String) : Written (.addr label) [.word "addr", .word label]
  | defined {source : Located Operand} {taken : List TokenKind}
      (h : source.node.Written taken) : Written (.defined source) (.word "defined" :: taken)
  | clone {source : Located Operand} {taken : List TokenKind}
      (h : source.node.Written taken) : Written (.clone source) (.word "clone" :: taken)

inductive Condition.Written : Condition → List TokenKind → Prop where
  | truth {operand : Located Operand} {taken : List TokenKind}
      (h : operand.node.Written taken) : Written (.truth operand) taken
  | compare {relation : Relation} {lhs rhs : Located Operand} {left right : List TokenKind}
      (first : lhs.node.Written left) (second : rhs.node.Written right) :
      Written (.compare relation lhs rhs) (left ++ .mark relation.mark :: right)

/-- An instruction may be called like three of the keywords. -/
inductive MnemonicWritten : String → TokenKind → Prop where
  | word (name : String) : MnemonicWritten name (.word name)
  | ifWord : MnemonicWritten "if" (.mark .ifWord)
  | unlessWord : MnemonicWritten "unless" (.mark .unlessWord)
  | newWord : MnemonicWritten "new" (.mark .newWord)

/-- The keyword of a conditional jump. -/
def branchMark (negated : Bool) : Mark := if negated then .unlessWord else .ifWord

inductive Statement.Written : Statement → List TokenKind → Prop where
  | openSub (name : String) : Written (.openSub name) [.directive "sub", .word name]
  | closeSub : Written .closeSub [.directive "end"]
  | declare (type name : String) :
      Written (.declare type name) [.directive "local", .word type, .word name]
  | label (name : String) : Written (.label name) [.word name, .mark .colon]
  | bare {mnemonic : String} {kind : TokenKind} (h : MnemonicWritten mnemonic kind) :
      Written (.instruction mnemonic []) [kind]
  | instruction {mnemonic : String} {kind : TokenKind} {operands : List (Located Operand)}
      {taken : List TokenKind} (h : MnemonicWritten mnemonic kind)
      (all : Separated (.mark .comma) (fun (o : Located Operand) => o.node.Written) operands
        taken) :
      Written (.instruction mnemonic operands) (kind :: taken)
  | assign {target : Located Operand} {value : Value} {left right : List TokenKind}
      (first : target.node.Written left) (second : value.Written right) :
      Written (.assign target value) (left ++ .mark .equals :: right)
  | jump (label : String) : Written (.jump label) [.mark .gotoWord, .word label]
  | call (label : String) : Written (.call label) [.word "call", .word label]
  | branch {negated : Bool} {condition : Condition} {taken : List TokenKind}
      (h : condition.Written taken) (label : String) :
      Written (.branch negated condition label)
        (.mark (branchMark negated) :: (taken ++ [.mark .gotoWord, .word label]))

namespace Grammar

theorem reads_name : name.Reads fun text taken => taken = [.word text] := by
  refine reads_accept.mono ?_
  rintro text taken ⟨kind, rfl, chosen⟩
  cases kind <;> simp_all

theorem reads_unsignedAtom : unsignedAtom.Reads Atom.Written := by
  refine reads_accept.mono ?_
  rintro a taken ⟨kind, rfl, chosen⟩
  cases kind <;> cases chosen <;> constructor

theorem reads_negatedNumber :
    negatedNumber.Reads fun a taken => a.Written (.mark .minus :: taken) := by
  refine reads_accept.mono ?_
  rintro a taken ⟨kind, rfl, chosen⟩
  cases kind <;> cases chosen <;> constructor

theorem reads_atom : atom.Reads Atom.Written := by
  refine reads_unsignedAtom.orElse (reads_negatedNumber.mark_right.mono ?_)
  rintro a taken ⟨rest, rfl, written⟩
  exact written

theorem reads_keyGroup : keyGroup.Reads KeyGroup := by
  refine (reads_atom.located.separatedBy.mark_right.left_mark).mono ?_
  rintro keys taken ⟨first, rfl, inside, rfl, separated⟩
  exact ⟨inside, rfl, separated⟩

theorem reads_operand : operand.Reads fun o taken => o.node.Written taken := by
  refine ((reads_atom.followedBy_many reads_keyGroup).map ?_).located
  rintro ⟨base, groups⟩ taken ⟨first, rest, rfl, atom, keys⟩
  exact .intro atom keys

theorem reads_relation : relation.Reads fun r taken => taken = [.mark r.mark] := by
  refine reads_accept.mono ?_
  rintro r taken ⟨kind, rfl, chosen⟩
  split at chosen <;> cases chosen <;> rfl

theorem reads_binaryOp : binaryOp.Reads fun op taken => taken = [.mark op.mark] := by
  refine reads_accept.mono ?_
  rintro op taken ⟨kind, rfl, chosen⟩
  split at chosen <;> cases chosen <;> rfl

theorem reads_unaryOp : unaryOp.Reads fun op taken => taken = [.mark op.mark] := by
  refine reads_accept.mono ?_
  rintro op taken ⟨kind, rfl, chosen⟩
  split at chosen <;> cases chosen <;> rfl

theorem reads_typeName : typeName.Reads Atom.Written := by
  refine reads_accept.mono ?_
  rintro a taken ⟨kind, rfl, chosen⟩
  cases kind <;> cases chosen <;> constructor

section Choice

variable {c : Cursor} {n : Nat} {rest : List TokenKind}

/-- A negative number is an operand. -/
theorem operand_of_literal (h : c.kinds = .mark .minus :: .integer n :: rest) :
    (operand.run c).result ≠ none := by
  obtain ⟨stop, tokens⟩ := c
  match tokens, h with
  | ⟨.mark .minus, span⟩ :: ⟨.integer n, other⟩ :: tokens, rfl =>
      simp [operand, atom, unsignedAtom, negatedNumber, mark, token, right]

/-- So a word that asks for an operand takes it. -/
theorem query_of_literal {text : String} {f : Located Operand → Value}
    (h : c.kinds = .word text :: .mark .minus :: .integer n :: rest) :
    ((((keyword text).right operand).map f).run c).result ≠ none := by
  obtain ⟨stop, tokens⟩ := c
  match tokens with
  | ⟨kind, span⟩ :: tokens =>
      obtain ⟨same, after⟩ := List.cons.inj h
      have literal := operand_of_literal (c := ⟨span.stop, tokens⟩) after
      obtain ⟨out, read⟩ := Option.ne_none_iff_exists'.mp literal
      have same : kind = .word text := same
      simp [keyword, token, right, read, same]

end Choice

theorem reads_value : value.Reads Value.Written := by
  intro c v d read
  rcases orElse_some read with new | ⟨_, read⟩
  · refine (reads_typeName.located.mark_right.map ?_) c v d new
    rintro type taken ⟨rest, rfl, written⟩
    exact .new written
  rcases orElse_some read with addr | ⟨_, read⟩
  · refine (reads_name.token_right.map ?_) c v d addr
    rintro label taken ⟨rest, rfl, rfl⟩
    exact .addr label
  rcases orElse_some read with defined | ⟨noDefined, read⟩
  · refine (reads_operand.token_right.map ?_) c v d defined
    rintro source taken ⟨rest, rfl, written⟩
    exact .defined written
  rcases orElse_some read with clone | ⟨noClone, read⟩
  · refine (reads_operand.token_right.map ?_) c v d clone
    rintro source taken ⟨rest, rfl, written⟩
    exact .clone written
  -- a binary form is taken where no query is, and a unary one where there is no literal
  rcases orElse_some read with binary | ⟨_, read⟩
  · rw [map_result] at binary
    obtain ⟨⟨⟨⟨lhs, op⟩, rhs⟩, e⟩, operands, same⟩ := Option.map_eq_some_iff.mp binary
    cases same
    obtain ⟨taken, split, whole, right, rfl, ⟨left, sign, rfl, first, rfl⟩, second⟩ :=
      ((reads_operand.andThen reads_binaryOp).andThen reads_operand) c _ d operands
    have split : c.kinds = (left ++ .mark op.mark :: right) ++ d.kinds := by simpa using split
    refine ⟨left ++ .mark op.mark :: right, split, .binary first second ?_⟩
    intro text mem n rest literal
    have kinds : c.kinds = .word text :: .mark .minus :: .integer n :: (rest ++ d.kinds) := by
      rw [split, literal]
      rfl
    rcases (by simpa [queryWords] using mem : text = "defined" ∨ text = "clone") with rfl | rfl
    · exact query_of_literal kinds noDefined
    · exact query_of_literal kinds noClone
  rcases orElse_some read with operand | ⟨noOperand, unary⟩
  · exact (reads_operand.map fun _ _ written => .operand written) c v d operand
  · rw [map_result] at unary
    obtain ⟨⟨⟨op, source⟩, e⟩, phrase, same⟩ := Option.map_eq_some_iff.mp unary
    cases same
    obtain ⟨taken, split, sign, rest, rfl, rfl, written⟩ :=
      (reads_unaryOp.andThen reads_operand) c _ d phrase
    refine ⟨.mark op.mark :: rest, split, .unary written ?_⟩
    intro n more literal
    have kinds : c.kinds = .mark .minus :: .integer n :: (more ++ d.kinds) := by
      rw [split, List.singleton_append, literal]
      rfl
    exact operand_of_literal kinds (Option.map_eq_none_iff.mp noOperand)

theorem reads_condition : condition.Reads Condition.Written := by
  refine Reads.orElse (((reads_operand.andThen reads_relation).andThen reads_operand).map ?_)
    (reads_operand.map fun _ _ written => .truth written)
  rintro ⟨⟨lhs, relation⟩, rhs⟩ taken ⟨whole, right, rfl, ⟨left, sign, rfl, first, rfl⟩, second⟩
  rw [List.append_assoc]
  exact .compare first second

theorem reads_branchWord :
    ((mark .ifWord).map (fun _ => false) <|> (mark .unlessWord).map (fun _ => true)).Reads
      fun negated taken => taken = [.mark (branchMark negated)] := by
  refine Reads.orElse (reads_mark.map ?_) (reads_mark.map ?_)
  all_goals
    intro _ taken h
    exact h

theorem reads_conditional : conditional.Reads Statement.Written := by
  refine (((reads_branchWord.andThen reads_condition).left_mark).andThen reads_name).map ?_
  rintro ⟨⟨negated, test⟩, label⟩ taken
    ⟨first, second, rfl, ⟨whole, rfl, sign, rest, rfl, rfl, written⟩, rfl⟩
  have phrase : Statement.Written (.branch negated test label) _ := .branch written label
  simpa using phrase

theorem reads_mnemonic :
    mnemonic.Reads fun text taken => ∃ kind, taken = [kind] ∧ MnemonicWritten text kind := by
  refine Reads.orElse (reads_name.mono ?_) (Reads.orElse (reads_mark.map ?_)
    (Reads.orElse (reads_mark.map ?_) (reads_mark.map ?_)))
  all_goals
    rintro text taken rfl
    exact ⟨_, rfl, by constructor⟩

theorem reads_instruction : instruction.Reads Statement.Written := by
  refine (reads_mnemonic.followedBy_optional reads_operand.separatedBy).map ?_
  rintro ⟨op, operands⟩ taken ⟨first, rest, rfl, ⟨kind, rfl, called⟩, none | some⟩
  · obtain ⟨rfl, rfl⟩ := none
    exact .bare called
  · obtain ⟨all, rfl, separated⟩ := some
    exact .instruction called separated

theorem reads_statement : statement.Reads Statement.Written := by
  refine Reads.orElse (reads_name.token_right.map ?_) <|
    Reads.orElse (reads_token.map ?_) <|
    Reads.orElse ((reads_name.token_right.andThen reads_name).map ?_) <|
    Reads.orElse (reads_name.mark_right.map ?_) <|
    Reads.orElse reads_conditional <|
    Reads.orElse (reads_name.token_right.map ?_) <|
    Reads.orElse ((reads_operand.left_mark.andThen reads_value).map ?_) reads_instruction
  · rintro name taken ⟨rest, rfl, rfl⟩
    exact .openSub name
  · rintro _ taken rfl
    exact .closeSub
  · rintro ⟨type, name⟩ taken ⟨first, second, rfl, ⟨rest, rfl, rfl⟩, rfl⟩
    exact .declare type name
  · rintro label taken ⟨rest, rfl, rfl⟩
    exact .jump label
  · rintro label taken ⟨rest, rfl, rfl⟩
    exact .call label
  · rintro ⟨target, value⟩ taken ⟨whole, right, rfl, ⟨left, rfl, first⟩, second⟩
    rw [List.append_assoc]
    exact .assign first second

/-- A line is a label, a statement, or a label and a statement. -/
inductive LineWritten : List (Located Statement) → List TokenKind → Prop where
  | statement {s : Located Statement} {taken : List TokenKind} (h : s.node.Written taken) :
      LineWritten [s] taken
  | labelled {s t : Located Statement} {name : String} {taken : List TokenKind}
      (isLabel : s.node = .label name) (h : t.node.Written taken) :
      LineWritten [s, t] (.word name :: .mark .colon :: taken)

theorem reads_labelled : labelled.Reads LineWritten := by
  refine Reads.orElse (((reads_name.left_mark.map (S := fun s taken =>
    ∃ name, s = .label name ∧ taken = [.word name, .mark .colon]) ?_).located.followedBy_optional
      reads_statement.located).map ?_) (reads_statement.located.map ?_)
  · rintro name taken ⟨first, rfl, rfl⟩
    exact ⟨name, rfl, rfl⟩
  · rintro ⟨label, more⟩ taken ⟨first, rest, rfl, ⟨name, isLabel, rfl⟩, none | some⟩
    · obtain ⟨rfl, rfl⟩ := none
      refine .statement ?_
      rw [isLabel]
      exact .label name
    · obtain ⟨s, rfl, written⟩ := some
      exact .labelled isLabel written
  · intro s taken written
    exact .statement written

/-- A line that is read ends at a newline or at the end of the input. -/
theorem line_read {c d : Cursor} {statements : List (Located Statement)}
    (h : (line.run c).result = some (statements, d)) :
    ∃ taken, c.kinds = taken ++ d.kinds ∧ LineWritten statements taken ∧
      (d.kinds = [] ∨ ∃ rest, d.kinds = .newline :: rest) := by
  cases first : (labelled.run c).result with
  | none => simp [line, first] at h
  | some out =>
      obtain ⟨read, after⟩ := out
      simp only [line, first] at h
      split at h
      · rename_i ends
        cases h
        obtain ⟨taken, split, written⟩ := reads_labelled c _ _ first
        refine ⟨taken, split, written, ?_⟩
        obtain ⟨stop, tokens⟩ := d
        cases tokens with
        | nil => exact .inl rfl
        | cons t tokens =>
            refine .inr ⟨tokens.map Token.kind, ?_⟩
            simp only [lineEnd] at ends
            split at ends
            · rename_i newline
              rw [Cursor.kinds, List.map_cons, newline]
            · cases ends
      · cases h

theorem complains_mnemonic : mnemonic.Complains := by
  have last : (mark .newWord).Complains := complains_token
  unfold mnemonic
  exact Complains.orElse (Complains.orElse (Complains.orElse last.map))

theorem complains_statement : statement.Complains := by
  have last : instruction.Complains := complains_mnemonic.followedBy.map
  unfold statement
  iterate 7 apply Complains.orElse
  exact last

/-- A line that cannot be read leaves a miss. -/
theorem complains_line : line.Complains := by
  have labelled : labelled.Complains := by
    unfold labelled
    exact Complains.orElse complains_statement.located.map
  intro c failed
  cases first : (Grammar.labelled.run c).result with
  | none =>
      have said := labelled c first
      simpa [line, first] using said
  | some out =>
      obtain ⟨statements, d⟩ := out
      have unended : (lineEnd d).1 = false := by simpa [line, first] using failed
      have said : (lineEnd d).2 ≠ [] := by
        unfold lineEnd at unended ⊢
        split
        · exact List.cons_ne_nil _ _
        · split
          · simp_all
          · exact List.cons_ne_nil _ _
      simp [line, first, said]

end Grammar
end OpSelect
