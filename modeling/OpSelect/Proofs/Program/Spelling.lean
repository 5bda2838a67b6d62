import OpSelect.Proofs.List
import OpSelect.Proofs.Program.Phrase
import OpSelect.Proofs.Token.Munch
import OpSelect.Program.Parse

/-!
Statements spelled out. Every statement has one spelling, and the tokens of a file without
complaints differ from the spellings of its statements by little: they have newlines, a semicolon
where the keys of an operand share their brackets, and a minus sign before some zeros.
-/

namespace OpSelect

open Reader

def Atom.spell : Atom → List TokenKind
  | .integer value =>
      if value < 0 then [.mark .minus, .integer value.natAbs] else [.integer value.natAbs]
  | .float text =>
      match text.toList with
      | '-' :: magnitude => [.mark .minus, .float (String.ofList magnitude)]
      | _ => [.float text]
  | .string value => [.string value]
  | .register name => [.register name]
  | .word name => [.word name]
  | .typeName name => [.directive name]

/-- One bracket group for each key. -/
def Operand.spell (o : Operand) : List TokenKind :=
  o.base.spell ++
    o.keys.flatMap fun key => .mark .openBracket :: (key.node.spell ++ [.mark .closeBracket])

def Value.spell : Value → List TokenKind
  | .operand source => source.node.spell
  | .binary op lhs rhs => lhs.node.spell ++ .mark op.mark :: rhs.node.spell
  | .unary op source => .mark op.mark :: source.node.spell
  | .new type => .mark .newWord :: type.node.spell
  | .addr label => [.word "addr", .word label]
  | .defined source => .word "defined" :: source.node.spell
  | .clone source => .word "clone" :: source.node.spell

def Condition.spell : Condition → List TokenKind
  | .truth operand => operand.node.spell
  | .compare relation lhs rhs => lhs.node.spell ++ .mark relation.mark :: rhs.node.spell

def mnemonicKind : String → TokenKind
  | "if" => .mark .ifWord
  | "unless" => .mark .unlessWord
  | "new" => .mark .newWord
  | name => .word name

def Statement.spell : Statement → List TokenKind
  | .openSub name => [.directive "sub", .word name]
  | .closeSub => [.directive "end"]
  | .declare type name => [.directive "local", .word type, .word name]
  | .label name => [.word name, .mark .colon]
  | .instruction mnemonic operands =>
      mnemonicKind mnemonic ::
        [.mark .comma].intercalate (operands.map fun operand => operand.node.spell)
  | .assign target value => target.node.spell ++ .mark .equals :: value.spell
  | .jump name => [.mark .gotoWord, .word name]
  | .call name => [.word "call", .word name]
  | .branch negated condition name =>
      .mark (branchMark negated) :: (condition.spell ++ [.mark .gotoWord, .word name])

section Canonical

/-- An operand ends with an atom or with a bracket. -/
def TokenKind.endsOperand : TokenKind → Bool
  | .integer _ | .float _ | .string _ | .register _ | .word _ | .directive _ => true
  | .mark m => m = .closeBracket
  | .newline => false

/-- An operand ends just before, and it is the first one of a value. What was seen of the line is
given nearest first. A query word at the start of the value is no operand. -/
def followsOperand (seen : List TokenKind) : Bool :=
  let value := seen.takeWhile (· ≠ .mark .equals)
  .mark .equals ∈ seen ∧ value.head?.any TokenKind.endsOperand ∧
    ∀ text ∈ queryWords, value ≠ [.word text]

/-- Newlines are left out, a semicolon ends one bracket group and begins the next, and the literal
`- 0` is `0`; a minus sign that follows an operand is not part of a literal. -/
def canonicalFrom : (seen : List TokenKind) → List TokenKind → List TokenKind
  | _, [] => []
  | _, .newline :: rest => canonicalFrom [] rest
  | seen, .mark .semicolon :: rest =>
      .mark .closeBracket :: .mark .openBracket :: canonicalFrom (.mark .semicolon :: seen) rest
  | seen, .mark .minus :: .integer 0 :: rest =>
      if followsOperand seen then
        .mark .minus :: canonicalFrom (.mark .minus :: seen) (.integer 0 :: rest)
      else .integer 0 :: canonicalFrom (.integer 0 :: .mark .minus :: seen) rest
  | seen, kind :: rest => kind :: canonicalFrom (kind :: seen) rest

def canonical (kinds : List TokenKind) : List TokenKind := canonicalFrom [] kinds

/-- The tokens of a phrase come out as its spelling, whatever comes after them. -/
def ComesOut (seen taken spelling : List TokenKind) : Prop :=
  ∀ rest, canonicalFrom seen (taken ++ rest) =
    spelling ++ canonicalFrom (taken.reverse ++ seen) rest

variable {seen taken first second spelling : List TokenKind}

theorem ComesOut.nil : ComesOut seen [] [] := fun _ => rfl

theorem ComesOut.append {l r : List TokenKind} (h : ComesOut seen first l)
    (k : ComesOut (first.reverse ++ seen) second r) : ComesOut seen (first ++ second) (l ++ r) := by
  intro rest
  rw [List.append_assoc, h, k, List.append_assoc, List.reverse_append, List.append_assoc]

/-- A token is kept, unless a zero's sign, a newline or a semicolon. -/
theorem canonicalFrom_cons {kind : TokenKind} {rest : List TokenKind} (newline : kind ≠ .newline)
    (semicolon : kind ≠ .mark .semicolon)
    (minus : kind = .mark .minus →
      followsOperand seen = true ∨ ∃ next more, rest = next :: more ∧ next ≠ .integer 0) :
    canonicalFrom seen (kind :: rest) = kind :: canonicalFrom (kind :: seen) rest := by
  rw [canonicalFrom.eq_def]
  split
  · simp_all
  · simp_all
  · simp_all
  · rename_i same
    obtain ⟨rfl, rfl⟩ := List.cons.inj same
    rcases minus rfl with operator | ⟨next, more, same, nonzero⟩
    · rw [if_pos operator]
    · exact absurd (List.cons.inj same).1.symm nonzero
  · rename_i same
    obtain ⟨rfl, rfl⟩ := List.cons.inj same
    rfl

theorem comesOut_token {kind : TokenKind} (newline : kind ≠ .newline)
    (semicolon : kind ≠ .mark .semicolon) (minus : kind ≠ .mark .minus) :
    ComesOut seen [kind] [kind] :=
  fun _ => canonicalFrom_cons newline semicolon fun h => absurd h minus

theorem ComesOut.minus {next : TokenKind} (nonzero : next ≠ .integer 0)
    (h : ComesOut (.mark .minus :: seen) (next :: taken) spelling) :
    ComesOut seen (.mark .minus :: next :: taken) (.mark .minus :: spelling) := by
  intro rest
  have kept : canonicalFrom seen (.mark .minus :: (next :: taken ++ rest)) =
      .mark .minus :: canonicalFrom (.mark .minus :: seen) (next :: taken ++ rest) :=
    canonicalFrom_cons (by simp) (by simp) fun _ => .inr ⟨next, taken ++ rest, rfl, nonzero⟩
  rw [List.cons_append, kept, h rest]
  simp

theorem comesOut_zero (literal : followsOperand seen = false) :
    ComesOut seen [.mark .minus, .integer 0] [.integer 0] := by
  intro rest
  change canonicalFrom seen (.mark .minus :: .integer 0 :: rest) = _
  rw [canonicalFrom, if_neg (by simp [literal])]
  rfl

theorem comesOut_semicolon :
    ComesOut seen [.mark .semicolon] [.mark .closeBracket, .mark .openBracket] :=
  fun _ => rfl

theorem comesOut_operator (operator : followsOperand seen = true) :
    ComesOut seen [.mark .minus] [.mark .minus] :=
  fun _ => canonicalFrom_cons (by simp) (by simp) fun _ => .inl operator

theorem followsOperand_of_not_mem (h : .mark .equals ∉ seen) : followsOperand seen = false := by
  simp [followsOperand, h]

theorem followsOperand_of_head {kind : TokenKind} (h : kind.endsOperand = false) :
    followsOperand (kind :: seen) = false := by
  by_cases equals : kind = .mark .equals
  · simp [followsOperand, equals]
  · simp [followsOperand, equals, h]

theorem followsOperand_query {text : String} (h : text ∈ queryWords) :
    followsOperand (.word text :: .mark .equals :: seen) = false := by
  simp [followsOperand, h]

end Canonical

section Phrases

variable {seen taken : List TokenKind}

theorem TokenKind.IsRead.ne_mark {text : String} (h : (TokenKind.word text).IsRead) (m : Mark) :
    text ≠ m.text := by
  obtain ⟨p, rest, cs, takes, denotes⟩ := h
  cases denotes with
  | word =>
      rintro same
      refine takes.keyword rfl m ?_
      rw [← same, String.toList_ofList]

theorem TokenKind.IsRead.float_unsigned {text : String} (h : (TokenKind.float text).IsRead)
    (magnitude : List Char) : text.toList ≠ '-' :: magnitude := by
  obtain ⟨p, rest, cs, takes, denotes⟩ := h
  cases denotes with
  | float =>
      intro same
      have mem := takes.mem
      rw [String.toList_ofList] at same
      rw [same] at mem
      exact absurd (Pattern.lead_of_mem mem) (by decide)

theorem Atom.Written.comesOut {a : Atom} (h : a.Written taken)
    (read : ∀ kind ∈ taken, kind.IsRead) (literal : followsOperand seen = false) :
    ComesOut seen taken a.spell := by
  cases h with
  | integer value =>
      have spelling : Atom.spell (.integer value) = [.integer value] := by
        simp [Atom.spell]
      rw [spelling]
      exact comesOut_token (by simp) (by simp) (by simp)
  | float text =>
      have spelling : Atom.spell (.float text) = [.float text] := by
        have unsigned := TokenKind.IsRead.float_unsigned (read (.float text) (by simp))
        rw [Atom.spell]
        split
        · rename_i signed
          exact absurd signed (unsigned _)
        · rfl
      rw [spelling]
      exact comesOut_token (by simp) (by simp) (by simp)
  | string | register | word | typeName => exact comesOut_token (by simp) (by simp) (by simp)
  | negative value =>
      by_cases zero : value = 0
      · subst zero
        exact comesOut_zero literal
      · have spelling : Atom.spell (.integer (-value)) = [.mark .minus, .integer value] := by
          simp [Atom.spell, zero]
        rw [spelling]
        exact (comesOut_token (by simp) (by simp) (by simp)).minus (by simpa using zero)
  | negativeFloat text =>
      have spelling : Atom.spell (.float ("-" ++ text)) = [.mark .minus, .float text] := by
        simp [Atom.spell]
      rw [spelling]
      exact (comesOut_token (by simp) (by simp) (by simp)).minus (by simp)

theorem comesOut_keys {keys : List (Located Atom)}
    (h : Each (fun (key : Located Atom) kinds =>
      ∃ more, kinds = .mark .semicolon :: more ∧ key.node.Written more) keys taken)
    (read : ∀ kind ∈ taken, kind.IsRead) :
    ComesOut seen (taken ++ [.mark .closeBracket])
      (.mark .closeBracket :: keys.flatMap fun key =>
        .mark .openBracket :: (key.node.spell ++ [.mark .closeBracket])) := by
  induction h generalizing seen with
  | nil => exact comesOut_token (by simp) (by simp) (by simp)
  | @cons key keys first rest head tail ih =>
      obtain ⟨more, rfl, written⟩ := head
      have atom : ComesOut (.mark .semicolon :: seen) more key.node.spell :=
        written.comesOut (fun kind mem => read kind (by simp [mem])) (followsOperand_of_head rfl)
      have all := comesOut_semicolon.append (atom.append (ih fun kind mem =>
        read kind (by simp [mem])))
      simpa using all

theorem KeyGroup.comesOut {keys : List (Located Atom)} (h : KeyGroup keys taken)
    (read : ∀ kind ∈ taken, kind.IsRead) :
    ComesOut seen taken
      (keys.flatMap fun key =>
        .mark .openBracket :: (key.node.spell ++ [.mark .closeBracket])) := by
  obtain ⟨inside, rfl, separated⟩ := h
  cases keys with
  | nil => exact separated.elim
  | cons key keys =>
      obtain ⟨first, rest, rfl, written, others⟩ := separated
      have bracket : ComesOut seen [.mark .openBracket] [.mark .openBracket] :=
        comesOut_token (by simp) (by simp) (by simp)
      have atom : ComesOut (.mark .openBracket :: seen) first key.node.spell :=
        written.comesOut (fun kind mem => read kind (by simp [mem])) (followsOperand_of_head rfl)
      have all := bracket.append (atom.append (comesOut_keys others
        fun kind mem => read kind (by simp [mem])))
      simpa using all

theorem comesOut_groups {groups : List (List (Located Atom))} (h : Each KeyGroup groups taken)
    (read : ∀ kind ∈ taken, kind.IsRead) :
    ComesOut seen taken
      (groups.flatten.flatMap fun key =>
        .mark .openBracket :: (key.node.spell ++ [.mark .closeBracket])) := by
  induction h generalizing seen with
  | nil => exact .nil
  | cons head tail ih =>
      rw [List.flatten_cons, List.flatMap_append]
      exact (head.comesOut fun kind mem => read kind (by simp [mem])).append
        (ih fun kind mem => read kind (by simp [mem]))

theorem Operand.Written.comesOut {o : Operand} (h : o.Written taken)
    (read : ∀ kind ∈ taken, kind.IsRead) (literal : followsOperand seen = false) :
    ComesOut seen taken o.spell := by
  cases h with
  | intro atom keys =>
      refine (atom.comesOut (fun kind mem => read kind (by simp [mem])) literal).append ?_
      exact comesOut_groups keys fun kind mem => read kind (by simp [mem])

section Shape

theorem Atom.Written.noEquals {a : Atom} (h : a.Written taken) :
    ∀ kind ∈ taken, kind ≠ .mark .equals := by
  cases h <;> simp

theorem KeyGroup.noEquals {keys : List (Located Atom)} (h : KeyGroup keys taken) :
    ∀ kind ∈ taken, kind ≠ .mark .equals := by
  obtain ⟨inside, rfl, separated⟩ := h
  have within := separated.all (P := (· ≠ .mark .equals)) (by simp)
    fun _ _ written => written.noEquals
  intro kind mem
  simp only [List.mem_cons, List.mem_append, List.not_mem_nil, or_false] at mem
  rcases mem with rfl | mem | rfl
  · simp
  · exact within kind mem
  · simp

theorem Operand.Written.noEquals {o : Operand} (h : o.Written taken) :
    ∀ kind ∈ taken, kind ≠ .mark .equals := by
  cases h with
  | intro atom keys =>
      have groups := keys.all (P := (· ≠ .mark .equals)) fun _ _ group => group.noEquals
      intro kind mem
      rcases List.mem_append.mp mem with mem | mem
      · exact atom.noEquals kind mem
      · exact groups kind mem

theorem groups_end {groups : List (List (Located Atom))} (h : Each KeyGroup groups taken) :
    taken = [] ∨ ∃ init, taken = init ++ [.mark .closeBracket] := by
  induction h with
  | nil => exact .inl rfl
  | cons head tail ih =>
      obtain ⟨inside, rfl, _⟩ := head
      rcases ih with rfl | ⟨init, rfl⟩
      · exact .inr ⟨.mark .openBracket :: inside, by simp⟩
      · exact .inr ⟨.mark .openBracket :: (inside ++ [.mark .closeBracket]) ++ init, by simp⟩

/-- The last token of an operand. -/
theorem Operand.Written.ends {o : Operand} (h : o.Written taken) :
    ∃ init last, taken = init ++ [last] ∧ last.endsOperand = true := by
  cases h with
  | @intro base groups first rest atom keys =>
      rcases groups_end keys with rfl | ⟨init, rfl⟩
      · rw [List.append_nil]
        cases atom with
        | integer | float | string | register | word | typeName => exact ⟨[], _, rfl, rfl⟩
        | negative | negativeFloat => exact ⟨[.mark .minus], _, rfl, rfl⟩
      · exact ⟨first ++ init, .mark .closeBracket, by simp, rfl⟩

/-- After the first operand of a value. -/
theorem Operand.Written.followsOperand {o : Operand} (h : o.Written taken)
    (noQuery : ∀ text ∈ queryWords, taken ≠ [.word text]) :
    followsOperand (taken.reverse ++ .mark .equals :: seen) = true := by
  have value : (taken.reverse ++ .mark .equals :: seen).takeWhile (· ≠ .mark .equals) =
      taken.reverse := by
    rw [List.takeWhile_append_of_pos fun kind mem => by
      simpa using h.noEquals kind (List.mem_reverse.mp mem)]
    simp
  have named : ∀ text ∈ queryWords, taken.reverse ≠ [.word text] := fun text mem single =>
    noQuery text mem (by rw [← List.reverse_reverse taken, single]; rfl)
  obtain ⟨init, last, rfl, ends⟩ := h.ends
  rw [OpSelect.followsOperand, value]
  simp only [decide_eq_true_eq]
  exact ⟨by simp, by simp [ends], named⟩

end Shape

/-- The sign of an operator between two operands. -/
theorem comesOut_sign {m : Mark} {right spelling : List TokenKind} (semicolon : m ≠ .semicolon)
    (minus : m = .minus → ∀ rest, right = .integer 0 :: rest → followsOperand seen = true)
    (nonempty : right ≠ [])
    (h : ComesOut (.mark m :: seen) right spelling) :
    ComesOut seen (.mark m :: right) (.mark m :: spelling) := by
  by_cases isMinus : m = .minus
  · subst isMinus
    obtain ⟨next, rest, rfl⟩ := List.exists_cons_of_ne_nil nonempty
    by_cases zero : next = .integer 0
    · subst zero
      exact (comesOut_operator (minus rfl rest rfl)).append h
    · exact h.minus zero
  · exact (comesOut_token (by simp) (by simpa using semicolon) (by simpa using isMinus)).append h

theorem Value.Written.comesOut {v : Value} (h : v.Written taken)
    (read : ∀ kind ∈ taken, kind.IsRead) :
    ComesOut (.mark .equals :: seen) taken v.spell := by
  have start : followsOperand (.mark .equals :: seen) = false := followsOperand_of_head rfl
  cases h with
  | operand written => exact written.comesOut read start
  | @binary op lhs rhs left right first second noQuery =>
      refine (first.comesOut (fun kind mem => read kind (by simp [mem])) start).append ?_
      obtain ⟨init, last, rfl, _⟩ := second.ends
      refine comesOut_sign (by cases op <;> simp [BinaryOp.mark]) ?_ (by simp)
        (second.comesOut (fun kind mem => read kind (by simp [mem])) ?_)
      · intro minus rest zero
        refine first.followsOperand fun text mem single => ?_
        rw [single, minus, zero] at noQuery
        exact noQuery text mem 0 rest rfl
      · exact followsOperand_of_head (by cases op <;> rfl)
  | @unary op source rest written noLiteral =>
      obtain ⟨init, last, rfl, _⟩ := written.ends
      refine comesOut_sign (by cases op <;> simp [UnaryOp.mark]) ?_ (by simp)
        (written.comesOut (fun kind mem => read kind (by simp [mem])) ?_)
      · intro minus more zero
        rw [minus, zero] at noLiteral
        exact absurd rfl (noLiteral 0 more)
      · exact followsOperand_of_head (by cases op <;> rfl)
  | @new type rest written =>
      have word : ComesOut (.mark .equals :: seen) [.mark .newWord] [.mark .newWord] :=
        comesOut_token (by simp) (by simp) (by simp)
      exact word.append (written.comesOut (fun kind mem => read kind (by simp [mem]))
        (followsOperand_of_head rfl))
  | addr label =>
      exact (comesOut_token (by simp) (by simp) (by simp)).append
        (comesOut_token (by simp) (by simp) (by simp))
  | @defined source rest written =>
      have word : ComesOut (.mark .equals :: seen) [.word "defined"] [.word "defined"] :=
        comesOut_token (by simp) (by simp) (by simp)
      exact word.append (written.comesOut (fun kind mem => read kind (by simp [mem]))
        (followsOperand_query (by simp [queryWords])))
  | @clone source rest written =>
      have word : ComesOut (.mark .equals :: seen) [.word "clone"] [.word "clone"] :=
        comesOut_token (by simp) (by simp) (by simp)
      exact word.append (written.comesOut (fun kind mem => read kind (by simp [mem]))
        (followsOperand_query (by simp [queryWords])))

theorem Condition.Written.comesOut {v : Condition} (h : v.Written taken)
    (read : ∀ kind ∈ taken, kind.IsRead) (noValue : .mark .equals ∉ seen) :
    ComesOut seen taken v.spell := by
  have start : followsOperand seen = false := followsOperand_of_not_mem noValue
  cases h with
  | truth written => exact written.comesOut read start
  | @compare relation lhs rhs left right first second =>
      have sign : ComesOut (left.reverse ++ seen) [.mark relation.mark] [.mark relation.mark] := by
        cases relation <;> exact comesOut_token (by simp) (by simp [Relation.mark])
          (by simp [Relation.mark])
      refine (first.comesOut (fun kind mem => read kind (by simp [mem])) start).append ?_
      exact sign.append (second.comesOut (fun kind mem => read kind (by simp [mem]))
        (followsOperand_of_head (by cases relation <;> rfl)))

theorem MnemonicWritten.kind_eq {mnemonic : String} {kind : TokenKind}
    (h : MnemonicWritten mnemonic kind) (read : kind.IsRead) : mnemonicKind mnemonic = kind := by
  cases h with
  | word =>
      unfold mnemonicKind
      split
      · exact absurd rfl (read.ne_mark .ifWord)
      · exact absurd rfl (read.ne_mark .unlessWord)
      · exact absurd rfl (read.ne_mark .newWord)
      · rfl
  | ifWord | unlessWord | newWord => rfl

theorem comesOut_mnemonic {mnemonic : String} {kind : TokenKind}
    (h : MnemonicWritten mnemonic kind) (read : kind.IsRead) :
    ComesOut seen [kind] [mnemonicKind mnemonic] := by
  rw [h.kind_eq read]
  cases h <;> exact comesOut_token (by simp) (by simp) (by simp)

theorem comesOut_operands {operands : List (Located Operand)}
    (h : Separated (.mark .comma) (fun (o : Located Operand) => o.node.Written) operands taken)
    (read : ∀ kind ∈ taken, kind.IsRead) (noValue : .mark .equals ∉ seen) :
    ComesOut seen taken
      ([.mark .comma].intercalate (operands.map fun operand => operand.node.spell)) := by
  -- the first operand apart, each one comes with the comma before it
  have others {more : List (Located Operand)} {rest before : List TokenKind}
      (each : Each (fun (o : Located Operand) kinds =>
        ∃ more, kinds = .mark .comma :: more ∧ o.node.Written more) more rest)
      (read : ∀ kind ∈ rest, kind.IsRead) :
      ComesOut before rest (more.flatMap fun operand => .mark .comma :: operand.node.spell) := by
    induction each generalizing before with
    | nil => exact .nil
    | @cons o more kinds rest head tail ih =>
        obtain ⟨inside, rfl, written⟩ := head
        have comma : ComesOut before [.mark .comma] [.mark .comma] :=
          comesOut_token (by simp) (by simp) (by simp)
        have operand : ComesOut (.mark .comma :: before) inside o.node.spell :=
          written.comesOut (fun kind mem => read kind (by simp [mem]))
            (followsOperand_of_head rfl)
        exact (comma.append operand).append (ih fun kind mem => read kind (by simp [mem]))
  cases operands with
  | nil => exact h.elim
  | cons o more =>
      obtain ⟨first, rest, rfl, written, each⟩ := h
      have spelling : [.mark .comma].intercalate
            ((o :: more).map fun operand => operand.node.spell) =
          o.node.spell ++ more.flatMap fun operand => .mark .comma :: operand.node.spell := by
        rw [List.map_cons, intercalate_cons, List.flatMap_map]
        rfl
      rw [spelling]
      exact (written.comesOut (fun kind mem => read kind (by simp [mem]))
        (followsOperand_of_not_mem noValue)).append
        (others each fun kind mem => read kind (by simp [mem]))

/-- The tokens of a statement come out as its spelling, where no value was begun before. -/
theorem Statement.Written.comesOut {s : Statement} (h : s.Written taken)
    (read : ∀ kind ∈ taken, kind.IsRead) (noValue : .mark .equals ∉ seen) :
    ComesOut seen taken s.spell := by
  have plain {before : List TokenKind} {kind : TokenKind} (newline : kind ≠ .newline)
      (semicolon : kind ≠ .mark .semicolon) (minus : kind ≠ .mark .minus) :
      ComesOut before [kind] [kind] := comesOut_token newline semicolon minus
  cases h with
  | openSub name | label name | jump label | call label =>
      exact (plain (by simp) (by simp) (by simp)).append (plain (by simp) (by simp) (by simp))
  | closeSub => exact plain (by simp) (by simp) (by simp)
  | declare type name =>
      exact (plain (by simp) (by simp) (by simp)).append
        ((plain (by simp) (by simp) (by simp)).append (plain (by simp) (by simp) (by simp)))
  | bare called => exact comesOut_mnemonic called (read _ (by simp))
  | @instruction mnemonic kind operands rest called all =>
      refine (comesOut_mnemonic called (read _ (by simp))).append
        (comesOut_operands all (fun kind mem => read kind (by simp [mem])) ?_)
      cases called <;> simpa using noValue
  | @assign target value left right first second =>
      have sign : ComesOut (left.reverse ++ seen) [.mark .equals] [.mark .equals] :=
        plain (by simp) (by simp) (by simp)
      exact (first.comesOut (fun kind mem => read kind (by simp [mem]))
        (followsOperand_of_not_mem noValue)).append
        (sign.append (second.comesOut fun kind mem => read kind (by simp [mem])))
  | @branch negated condition rest written label =>
      have word : ComesOut seen [.mark (branchMark negated)] [.mark (branchMark negated)] := by
        cases negated <;> exact plain (by simp) (by simp [branchMark]) (by simp [branchMark])
      have test : ComesOut (.mark (branchMark negated) :: seen) rest condition.spell := by
        refine written.comesOut (fun kind mem => read kind (by simp [mem])) ?_
        cases negated <;> simpa [branchMark] using noValue
      exact word.append (test.append ((plain (by simp) (by simp) (by simp)).append
        (plain (by simp) (by simp) (by simp))))

theorem LineWritten.comesOut {statements : List (Located Statement)}
    (h : Grammar.LineWritten statements taken) (read : ∀ kind ∈ taken, kind.IsRead) :
    ComesOut [] taken (statements.flatMap fun s => s.node.spell) := by
  cases h with
  | statement written =>
      rw [List.flatMap_singleton]
      exact written.comesOut read List.not_mem_nil
  | @labelled s t name rest isLabel written =>
      have label : ComesOut [] [.word name, .mark .colon] s.node.spell := by
        rw [isLabel]
        exact (Statement.Written.label name).comesOut (fun kind mem => read kind (by
          rcases List.mem_pair.mp mem with rfl | rfl <;> simp)) List.not_mem_nil
      rw [List.flatMap_cons, List.flatMap_singleton]
      exact label.append (written.comesOut (fun kind mem => read kind (by simp [mem])) (by simp))

end Phrases

section File

theorem Complaint.note_ne_none (complaint : Option Complaint) (m : Miss) :
    Complaint.note complaint m ≠ none := by
  unfold Complaint.note
  split
  · simp
  · split_ifs <;> simp

theorem Complaint.noteAll_ne_none {complaint : Option Complaint} {misses : List Miss}
    (h : misses ≠ []) : Complaint.noteAll complaint misses ≠ none := by
  induction misses using List.reverseRecOn with
  | nil => exact absurd rfl h
  | append_singleton misses m _ =>
      rw [Complaint.noteAll, List.foldl_append]
      exact Complaint.note_ne_none _ m

/-- Newlines at the cursor are all that lies between it and the end of the gap. -/
theorem Reading.newlines_gap (c : Cursor) :
    ∃ n, c.kinds = List.replicate n .newline ++ (newlines c).cursor.kinds := by
  obtain ⟨taken, split, each⟩ := reads_token.repeatedly (p := token .newline) c
  have all : ∀ kind ∈ taken, kind = .newline := each.all (by simp)
  exact ⟨taken.length, by rw [← List.eq_replicate_of_mem all]; exact split⟩

theorem canonical_newlines (n : Nat) (rest : List TokenKind) :
    canonical (List.replicate n .newline ++ rest) = canonical rest := by
  induction n with
  | zero => rfl
  | succ n ih => exact ih

/-- What was seen of a line does not matter at its end. -/
theorem canonicalFrom_lineEnd {seen kinds : List TokenKind}
    (h : kinds = [] ∨ ∃ rest, kinds = .newline :: rest) :
    canonicalFrom seen kinds = canonical kinds := by
  rcases h with rfl | ⟨rest, rfl⟩
  · rfl
  · rfl

/-- The lines of a file without complaints, by induction on the reading. -/
theorem Reading.lines_spelled (c : Cursor) (complaint : Option Complaint)
    (read : ∀ kind ∈ c.kinds, kind.IsRead) (good : (lines c complaint).complaints = []) :
    (lines c complaint).statements.flatMap (fun s => s.node.spell) = canonical c.kinds := by
  fun_induction lines c complaint with
  | case1 c complaint attempt noted statements d found shorter keeps gap rest ih =>
      obtain ⟨taken, split, written, ended⟩ := Grammar.line_read found
      obtain ⟨n, newlines⟩ := newlines_gap d
      have line := LineWritten.comesOut written fun kind mem => read kind (by simp [split, mem])
      have others : rest.statements.flatMap (fun s => s.node.spell) = canonical d.kinds := by
        rw [newlines, canonical_newlines]
        exact ih (fun kind mem => read kind (by rw [split, newlines]; simp [mem, gap])) good
      rw [List.flatMap_append, others, split]
      exact (line d.kinds).trans (by rw [canonicalFrom_lineEnd ended]) |>.symm
  | case2 c complaint attempt noted failed statements d misses found shorter keeps gap rest ih =>
      -- the bad line was complained about
      have complained : noted ≠ none :=
        Complaint.noteAll_ne_none (Grammar.complains_line c failed)
      simp only [complaints, List.append_eq_nil_iff, Option.toList_eq_nil_iff] at good
      exact absurd good.1.1 complained
  | case3 c complaint attempt noted failed noRetry final =>
      have ended : c.rest = [] := by
        cases rest : c.rest with
        | nil => rfl
        | cons t more =>
            have : final ≠ none := by
              simp only [final, rest]
              exact Complaint.note_ne_none noted _
            simp [complaints] at good
            exact absurd good this
      rw [Cursor.kinds, ended]
      rfl

/-- Newlines before the first line change nothing. -/
theorem Reading.ofTokens_spelled {tokens : List Token}
    (read : ∀ kind ∈ tokens.map Token.kind, kind.IsRead)
    (good : (ofTokens tokens).complaints = []) :
    (ofTokens tokens).statements.flatMap (fun s => s.node.spell) =
      canonical (tokens.map Token.kind) := by
  obtain ⟨n, newlines⟩ := newlines_gap ⟨0, tokens⟩
  change tokens.map Token.kind = _ at newlines
  rw [newlines, canonical_newlines]
  refine lines_spelled _ _ (fun kind mem => read kind ?_) good
  rw [newlines]
  exact List.mem_append_right _ mem

theorem parseTokens_eq_ok {tokens : List Token} {statements : List (Located Statement)} :
    parseTokens tokens = .ok statements ↔
      (Reading.ofTokens tokens).complaints = [] ∧
        statements = (Reading.ofTokens tokens).statements := by
  unfold parseTokens
  dsimp only
  cases (Reading.ofTokens tokens).complaints with
  | nil => simp [eq_comm]
  | cons complaint complaints => simp

theorem isRead_of_tokenize {source : String} {tokens : List Token}
    (lexed : tokenize source = .ok tokens) : ∀ kind ∈ tokens.map Token.kind, kind.IsRead := by
  intro kind mem
  obtain ⟨t, isToken, rfl⟩ := List.mem_map.mp mem
  exact isRead_of_mem lexed isToken

/-- Nothing is lost and nothing is invented: the statements of a text without complaints, spelled
out in order, are its tokens in canonical form. -/
theorem statements_spell_tokens {source : String} {tokens : List Token}
    {statements : List (Located Statement)} (lexed : tokenize source = .ok tokens)
    (parsed : parseTokens tokens = .ok statements) :
    statements.flatMap (fun s => s.node.spell) = canonical (tokens.map Token.kind) := by
  obtain ⟨good, rfl⟩ := parseTokens_eq_ok.mp parsed
  exact Reading.ofTokens_spelled (isRead_of_tokenize lexed) good

/-- A minus sign as part of a literal and as an operator, and keys in one group. -/
def signedSource : String := "L: x[1;-0] = clone -0\nif a <= -2 goto L\n\ny = x[0] - 0"

def signedSpelling : List TokenKind :=
  [.word "L", .mark .colon, .word "x", .mark .openBracket, .integer 1, .mark .closeBracket,
    .mark .openBracket, .integer 0, .mark .closeBracket, .mark .equals, .word "clone", .integer 0,
    .mark .ifWord, .word "a", .mark .lessEquals, .mark .minus, .integer 2, .mark .gotoWord,
    .word "L", .word "y", .mark .equals, .word "x", .mark .openBracket, .integer 0,
    .mark .closeBracket, .mark .minus, .integer 0]

theorem statements_spell_tokens_signed :
    ∃ tokens statements, tokenize signedSource = .ok tokens ∧
      parseTokens tokens = .ok statements ∧
      statements.flatMap (fun s => s.node.spell) = signedSpelling := by
  have spelled : (tokenize signedSource).map (fun tokens => canonical (tokens.map Token.kind)) =
      .ok signedSpelling := by decide +kernel
  have accepted : ((tokenize signedSource).bind parseTokens).isOk = true := by decide +kernel
  cases lexed : tokenize signedSource with
  | error reports =>
      rw [lexed] at spelled
      cases spelled
  | ok tokens =>
      rw [lexed] at spelled accepted
      change (parseTokens tokens).isOk = true at accepted
      cases parsed : parseTokens tokens with
      | error reports =>
          rw [parsed] at accepted
          cases accepted
      | ok statements =>
          have canonicalForm : canonical (tokens.map Token.kind) = signedSpelling :=
            Except.ok.inj spelled
          exact ⟨tokens, statements, rfl, parsed,
            (statements_spell_tokens lexed parsed).trans canonicalForm⟩

end File
end OpSelect
