import OpSelect.Proofs.Program.Choice

/-!
Statements can be written down and read again. A file with a statement on each line, spelled
canonically, is read as these statements, except where an earlier alternative of the grammar takes
what was meant for a later one. `Misread` lists these cases, and there are no others: a line is
read as the statement that it spells if and only if the statement is not among them.
-/

namespace OpSelect

open Reader Grammar

section Places

/-- The same thing at no place of the text. -/
def Located.unplaced {α : Type} (strip : α → α) (a : Located α) : Located α :=
  ⟨strip a.node, ⟨0, 0⟩⟩

def Operand.unplaced (o : Operand) : Operand := { o with keys := o.keys.map (Located.unplaced id) }

def Value.unplaced : Value → Value
  | .operand source => .operand (source.unplaced Operand.unplaced)
  | .binary op lhs rhs =>
      .binary op (lhs.unplaced Operand.unplaced) (rhs.unplaced Operand.unplaced)
  | .unary op source => .unary op (source.unplaced Operand.unplaced)
  | .new type => .new (type.unplaced id)
  | .addr label => .addr label
  | .defined source => .defined (source.unplaced Operand.unplaced)
  | .clone source => .clone (source.unplaced Operand.unplaced)

def Condition.unplaced : Condition → Condition
  | .truth operand => .truth (operand.unplaced Operand.unplaced)
  | .compare relation lhs rhs =>
      .compare relation (lhs.unplaced Operand.unplaced) (rhs.unplaced Operand.unplaced)

/-- The statement without the spans of its parts. -/
def Statement.unplaced : Statement → Statement
  | .instruction mnemonic operands =>
      .instruction mnemonic (operands.map (Located.unplaced Operand.unplaced))
  | .assign target value => .assign (target.unplaced Operand.unplaced) value.unplaced
  | .branch negated condition name => .branch negated condition.unplaced name
  | .openSub name => .openSub name
  | .closeSub => .closeSub
  | .declare typeName name => .declare typeName name
  | .label name => .label name
  | .jump name => .jump name
  | .call name => .call name

theorem Operand.unplaced_eq {o other : Operand} (base : o.base = other.base)
    (keys : o.keys.map Located.node = other.keys.map Located.node) :
    o.unplaced = other.unplaced := by
  have through (o : Operand) :
      o.unplaced = ⟨o.base, (o.keys.map Located.node).map (⟨·, ⟨0, 0⟩⟩)⟩ := by
    rw [List.map_map]
    rfl
  rw [through, through, base, keys]

end Places

/-- A number that is written without a sign. -/
def Atom.IsUnsigned : Atom → Prop
  | .integer value => 0 ≤ value
  | .float text => text.toList.head? ≠ some '-'
  | .string _ | .register _ | .word _ | .typeName _ => False

/-- A type is given by its name, with a dot or without. -/
def Atom.NamesType (a : Atom) : Prop := ∃ name, a = .typeName name ∨ a = .word name

/-- A value that reads as another one: a difference that begins like a query for a negative number,
and the negation of a number. -/
inductive Value.Misread : Value → Prop where
  | query {lhs rhs : Located Operand} {text : String} (asks : text ∈ queryWords)
      (base : lhs.node.base = .word text) (keys : lhs.node.keys = [])
      (literal : rhs.node.base.IsUnsigned) : Misread (.binary .sub lhs rhs)
  | negation {source : Located Operand} (literal : source.node.base.IsUnsigned) :
      Misread (.unary .neg source)

/-- A statement that reads as another one: an instruction that looks like the call of a label, an
assignment that begins like the end of a subroutine, and one of a misread value. -/
inductive Statement.Misread : Statement → Prop where
  | call {first : Located Operand} {operands : List (Located Operand)} {label : String}
      (base : first.node.base = .word label) : Misread (.instruction "call" (first :: operands))
  | closing {target : Located Operand} {value : Value}
      (base : target.node.base = .typeName "end") : Misread (.assign target value)
  | value {target : Located Operand} {value : Value} (h : value.Misread) :
      Misread (.assign target value)

theorem Statement.Misread.mnemonic_eq {mnemonic : String} {operands : List (Located Operand)}
    (h : (Statement.instruction mnemonic operands).Misread) : mnemonic = "call" := by
  cases h
  rfl

section Tokens

variable {more rest : List TokenKind} {first second : TokenKind}

theorem Operand.spell_eq (o : Operand) :
    o.spell = o.base.spell ++ (o.keys.map fun key => [key.node]).flatMap groupKinds := by
  rw [spell, List.flatMap_map]
  simp [groupKinds, List.intercalate]

theorem Atom.Written.eq_word {a : Atom} {text : String} (h : a.Written [.word text]) :
    a = .word text := by
  cases h
  rfl

theorem Atom.Written.eq_typeName {a : Atom} {name : String} (h : a.Written [.directive name]) :
    a = .typeName name := by
  cases h
  rfl

/-- An operand that begins without a minus sign begins with its base. -/
theorem Operand.first_token (o : Operand) (h : o.spell ++ more = first :: rest)
    (unsigned : first ≠ .mark .minus) :
    o.base.Written [first] ∧ rest = (o.keys.flatMap fun key =>
      .mark .openBracket :: (key.node.spell ++ [.mark .closeBracket])) ++ more := by
  have written := o.base.written_spell
  rw [spell] at h
  generalize o.base.spell = kinds at written h
  generalize o.base = base at written
  cases written with
  | negative | negativeFloat => exact absurd (List.cons.inj h).1.symm unsigned
  | integer | float | string | register | word | typeName =>
      obtain ⟨rfl, rfl⟩ := List.cons.inj h
      exact ⟨by constructor, rfl⟩

/-- After the first token of an operand come the rest of a number, a bracket, or what follows the
operand. -/
theorem Operand.second_token (o : Operand) (h : o.spell ++ more = first :: second :: rest) :
    (∃ n, second = .integer n) ∨ (∃ text, second = .float text) ∨
      second = .mark .openBracket ∨ more.head? = some second := by
  have after : (o.keys.flatMap fun key =>
      .mark .openBracket :: (key.node.spell ++ [.mark .closeBracket])) ++ more = second :: rest →
      second = .mark .openBracket ∨ more.head? = some second := by
    intro next
    cases keys : o.keys with
    | nil =>
        rw [keys] at next
        exact .inr (congrArg List.head? next)
    | cons key others =>
        rw [keys] at next
        exact .inl (List.cons.inj next).1.symm
  have written := o.base.written_spell
  rw [spell] at h
  generalize o.base.spell = kinds at written h
  generalize o.base = base at written
  cases written with
  | negative value => exact .inl ⟨value, (List.cons.inj (List.cons.inj h).2).1.symm⟩
  | negativeFloat text =>
      exact .inr (.inl ⟨text, (List.cons.inj (List.cons.inj h).2).1.symm⟩)
  | integer | float | string | register | word | typeName =>
      exact .inr (.inr (after (List.cons.inj h).2))

theorem Atom.spell_unsigned {a : Atom} (h : a.IsUnsigned) :
    (∃ n, a.spell = [.integer n]) ∨ ∃ text, a.spell = [.float text] := by
  cases a with
  | integer value => exact .inl ⟨value.natAbs, if_neg (Int.not_lt.mpr h)⟩
  | float text =>
      refine .inr ⟨text, ?_⟩
      rw [spell]
      split
      · rename_i magnitude negative
        rw [IsUnsigned, negative] at h
        exact absurd rfl h
      · rfl
  | string value | register name | word name | typeName name => exact h.elim

/-- A minus sign goes with a number that has none. -/
theorem finds_signed {a : Atom} (h : a.IsUnsigned) :
    atom.Finds (.mark .minus :: (a.spell ++ rest)) rest fun _ => True := by
  have found : negatedNumber.Finds (a.spell ++ rest) rest fun _ => True := by
    cases Atom.spell_unsigned h with
    | inl isInteger =>
        obtain ⟨n, spelled⟩ := isInteger
        have taken : negatedNumber.Finds (.integer n :: rest) rest (· = .integer (-n)) :=
          finds_accept rfl
        rw [spelled]
        exact taken.mono fun _ _ => trivial
    | inr isFloat =>
        obtain ⟨text, spelled⟩ := isFloat
        have taken : negatedNumber.Finds (.float text :: rest) rest (· = .float ("-" ++ text)) :=
          finds_accept rfl
        rw [spelled]
        exact taken.mono fun _ _ => trivial
  exact fails_unsignedAtom.orElse_finds (finds_token.right found)

theorem fails_signed {a : Atom} (h : ¬ a.IsUnsigned) :
    atom.Fails (.mark .minus :: (a.spell ++ rest)) := by
  have fails : negatedNumber.Fails (a.spell ++ rest) := by
    refine fails_accept fun kind mem => ?_
    cases a with
    | integer value =>
        rw [Atom.spell, if_pos (Int.not_le.mp h)] at mem
        cases mem
        rfl
    | float text =>
        obtain ⟨magnitude, negative⟩ := List.head?_eq_some_iff.mp (Classical.not_not.mp h)
        simp only [Atom.spell, negative] at mem
        cases mem
        rfl
    | string value | register name | word name | typeName name =>
        cases mem
        rfl
  exact fails_unsignedAtom.orElse (finds_token.andThen_fails fails).map

end Tokens

/-- Operands whose keys have a bracket group each. -/
theorem Operand.style : OperandStyle (fun o : Located Operand => o.node.spell) fun o found =>
    found.unplaced Operand.unplaced = o.unplaced Operand.unplaced where
  head o rest m h := by
    rw [spell, List.append_assoc]
    exact o.node.base.head_spell h
  finds o rest follows := by
    rw [spell_eq, List.append_assoc]
    refine (finds_operand o.node.base (by simp) follows).mono ?_
    rintro found ⟨base, keys⟩
    have flat : (o.node.keys.map fun key => [key.node]).flatten = o.node.keys.map Located.node := by
      rw [← List.flatMap_def, List.map_eq_flatMap]
    exact congrArg (Located.mk · ⟨0, 0⟩) (unplaced_eq base (keys.trans flat))

namespace Grammar

variable {kinds more rest : List TokenKind}

section Values

variable {P : Value → Prop}

/-- The values that begin with no keyword. -/
def plainValue : Reader Value :=
  ((operand.andThen binaryOp).andThen operand).map (fun ((lhs, op), rhs) => .binary op lhs rhs)
    <|> operand.map .operand
    <|> (unaryOp.andThen operand).map (fun (op, source) => .unary op source)

theorem finds_value_plain (fresh : kinds.head? ≠ some (.mark .newWord))
    (placed : ∀ text more, kinds ≠ .word "addr" :: .word text :: more)
    (unasked : ∀ text ∈ queryWords, ((keyword text).right operand).Fails kinds)
    (found : plainValue.Finds kinds rest P) : value.Finds kinds rest P := by
  unfold value
  refine (fails_token fresh).andThen.map.map.orElse_finds ?_
  refine (fails_token_name placed).map.orElse_finds ?_
  refine (unasked "defined" (by decide)).map.orElse_finds ?_
  exact (unasked "clone" (by decide)).map.orElse_finds found

/-- A query word asks nothing where no operand follows. -/
theorem fails_query {text : String} (h : ∀ more, kinds = .word text :: more → operand.Fails more) :
    ((keyword text).right operand).Fails kinds := by
  cases kinds with
  | nil => exact fails_nil _
  | cons first more =>
      by_cases same : first = .word text
      · rw [same]
        exact (Finds.andThen_fails finds_token (h more (by rw [same]))).map
      · exact (fails_token (by simpa using same)).andThen.map

/-- So it can be an operand, if what follows is not taken for one. -/
theorem fails_query_operand (o : Operand) {text : String}
    (bare : o.base = .word text → o.keys = [] → operand.Fails more) :
    ((keyword text).right operand).Fails (o.spell ++ more) := by
  apply fails_query
  intro tail same
  obtain ⟨base, rfl⟩ := o.first_token same nofun
  cases keys : o.keys with
  | nil => exact bare base.eq_word keys
  | cons key others => exact fails_operand (fails_atom (noAtom_mark (by decide)))

/-- Values that begin with an operand. -/
theorem finds_value_operand (o : Located Operand) (noWord : ∀ text, more.head? ≠ some (.word text))
    (bare : ∀ text ∈ queryWords, o.node.base = .word text → o.node.keys = [] → operand.Fails more)
    (found : plainValue.Finds (o.node.spell ++ more) rest P) :
    value.Finds (o.node.spell ++ more) rest P := by
  refine finds_value_plain (Operand.style.head o more _ (by decide)) ?_ ?_ found
  · intro text tail same
    rcases o.node.second_token same with ⟨_, h⟩ | ⟨_, h⟩ | h | h
    · cases h
    · cases h
    · cases h
    · exact noWord text h
  · intro text mem
    exact fails_query_operand o.node (bare text mem)

theorem finds_operand_unsigned {o : Operand} (literal : o.base.IsUnsigned)
    (follows : more.head? ≠ some (.mark .openBracket)) :
    operand.Finds (.mark .minus :: (o.spell ++ more)) more fun _ => True := by
  rw [o.spell_eq, List.append_assoc, ← List.cons_append]
  exact (finds_operand_of_atom (by simp) follows (finds_signed literal)).mono fun _ _ => trivial

theorem finds_binaryOp (op : BinaryOp) : binaryOp.Finds (.mark op.mark :: rest) rest (· = op) := by
  cases op <;> exact finds_accept rfl

theorem finds_unaryOp (op : UnaryOp) : unaryOp.Finds (.mark op.mark :: rest) rest (· = op) := by
  cases op <;> exact finds_accept rfl

theorem finds_value_source (source : Located Operand) :
    value.Finds source.node.spell []
      (·.unplaced = .operand (source.unplaced Operand.unplaced)) := by
  have found := Operand.style.finds source [] (by simp)
  rw [← List.append_nil source.node.spell]
  refine finds_value_operand source nofun (fun _ _ _ _ => fails_nil _) ?_
  refine (found.andThen_fails (fails_nil _)).andThen.map.orElse_finds (Finds.orElse ?_)
  exact found.map fun o same => congrArg Value.operand same

/-- A difference is not a query unless a number without a sign comes after the minus sign. -/
theorem finds_value_binary {op : BinaryOp} {lhs rhs : Located Operand}
    (read : ¬ (Value.binary op lhs rhs).Misread) :
    value.Finds (Value.binary op lhs rhs).spell []
      (·.unplaced = (Value.binary op lhs rhs).unplaced) := by
  have follows : op.mark ≠ .openBracket := by cases op <;> simp [BinaryOp.mark]
  have first := Operand.style.finds lhs (.mark op.mark :: rhs.node.spell) (by simpa using follows)
  have second := Operand.style.finds rhs [] (by simp)
  rw [List.append_nil] at second
  refine finds_value_operand lhs (by simp) ?_ ?_
  · intro text asks base keys
    refine fails_operand ?_
    by_cases minus : op = .sub
    · rw [minus] at read ⊢
      exact fails_signed fun literal => read (.query asks base keys literal)
    · refine fails_atom (noAtom_mark ?_)
      cases op <;> simp_all [BinaryOp.mark]
  · refine (((first.andThen (finds_binaryOp op)).andThen second).map ?_).orElse
    rintro ⟨⟨a, op'⟩, b⟩ ⟨⟨left, rfl⟩, right⟩
    simp only [Value.unplaced, left, right]

theorem finds_value_unary {op : UnaryOp} {source : Located Operand}
    (read : ¬ (Value.unary op source).Misread) :
    value.Finds (Value.unary op source).spell []
      (·.unplaced = (Value.unary op source).unplaced) := by
  have found := Operand.style.finds source [] (by simp)
  rw [List.append_nil] at found
  have unsigned : operand.Fails (.mark op.mark :: source.node.spell) := by
    refine fails_operand ?_
    by_cases minus : op = .neg
    · rw [minus] at read ⊢
      exact fails_signed fun literal => read (.negation literal)
    · refine fails_atom (noAtom_mark ?_)
      cases op <;> simp_all [UnaryOp.mark]
  refine finds_value_plain ?_ (by simp [Value.spell]) ?_ ?_
  · cases op <;> simp [Value.spell, UnaryOp.mark]
  · intro text _
    exact (fails_token (by simp [Value.spell])).andThen.map
  · refine unsigned.andThen.andThen.map.orElse_finds (unsigned.map.orElse_finds ?_)
    refine ((finds_unaryOp op).andThen found).map ?_
    rintro ⟨op', o⟩ ⟨rfl, same⟩
    exact congrArg (Value.unary op') same

theorem finds_value_new {type : Located Atom}
    (named : type.node.NamesType) :
    value.Finds (Value.new type).spell [] (·.unplaced = (Value.new type).unplaced) := by
  have found : typeName.Finds type.node.spell [] (· = type.node) := by
    obtain ⟨name, isType | isWord⟩ := named
    · rw [isType]
      exact finds_accept rfl
    · rw [isWord]
      exact finds_accept rfl
  refine ((finds_token.right found.located).map ?_).orElse
  intro a same
  exact congrArg (fun node => Value.new ⟨node, ⟨0, 0⟩⟩) same

theorem finds_value_addr (label : String) :
    value.Finds (Value.addr label).spell [] (·.unplaced = .addr label) := by
  unfold value
  refine (fails_token (by simp [Value.spell])).andThen.map.map.orElse_finds (Finds.orElse ?_)
  refine (finds_token.right (finds_name label)).map ?_
  intro name same
  rw [same]
  rfl

/-- A query word takes the operand after it. -/
theorem finds_value_query {P : Located Operand → Prop} (found : operand.Finds kinds rest P) :
    value.Finds (.word "defined" :: kinds) rest
        (fun v => ∃ source, v = .defined source ∧ P source) ∧
      value.Finds (.word "clone" :: kinds) rest
        fun v => ∃ source, v = .clone source ∧ P source := by
  have new (text : String) : ((mark .newWord).right typeName.located).Fails (.word text :: kinds) :=
    (fails_token (by simp)).andThen.map
  have other {text asked : String} {β : Type} (q : Reader β) (h : text ≠ asked) :
      ((keyword asked).right q).Fails (.word text :: kinds) :=
    (fails_token (by simpa using h)).andThen.map
  unfold value
  constructor
  · refine (new _).map.orElse_finds ((other _ (by decide)).map.orElse_finds (Finds.orElse ?_))
    exact (finds_token.right found).map fun source holds => ⟨source, rfl, holds⟩
  · refine (new _).map.orElse_finds ((other _ (by decide)).map.orElse_finds ?_)
    refine (other _ (by decide)).map.orElse_finds (Finds.orElse ?_)
    exact (finds_token.right found).map fun source holds => ⟨source, rfl, holds⟩

/-- A misread value is read whole, as a value of another form. -/
theorem finds_value_misread {v : Value} (h : v.Misread) :
    value.Finds v.spell [] (·.unplaced ≠ v.unplaced) := by
  cases h with
  | @query lhs rhs text asks base keys literal =>
      have spelled : lhs.node.spell = [.word text] := by
        rw [Operand.spell, base, keys]
        rfl
      have asked : operand.Finds (.mark .minus :: (rhs.node.spell ++ [])) [] fun _ => True :=
        finds_operand_unsigned literal (by simp)
      rw [List.append_nil] at asked
      have found := finds_value_query asked
      rw [Value.spell, spelled]
      simp only [queryWords, List.mem_cons, List.not_mem_nil, or_false] at asks
      rcases asks with rfl | rfl
      · refine found.1.mono ?_
        rintro _ ⟨source, rfl, _⟩
        exact Value.noConfusion
      · refine found.2.mono ?_
        rintro _ ⟨source, rfl, _⟩
        exact Value.noConfusion
  | @negation source literal =>
      have found : operand.Finds (.mark .minus :: (source.node.spell ++ [])) [] fun _ => True :=
        finds_operand_unsigned literal (by simp)
      rw [List.append_nil] at found
      refine finds_value_plain (by simp [Value.spell, UnaryOp.mark]) (by simp [Value.spell]) ?_ ?_
      · intro text _
        exact (fails_token (by simp [Value.spell])).andThen.map
      · refine (found.andThen_fails (fails_nil _)).andThen.map.orElse_finds (Finds.orElse ?_)
        exact found.map fun _ _ => Value.noConfusion

theorem finds_value {v : Value} (read : ¬ v.Misread)
    (named : ∀ type, v = .new type → type.node.NamesType) :
    value.Finds v.spell [] (·.unplaced = v.unplaced) := by
  cases v with
  | operand source => exact finds_value_source source
  | binary op lhs rhs => exact finds_value_binary read
  | unary op source => exact finds_value_unary read
  | new type => exact finds_value_new (named type rfl)
  | addr label => exact finds_value_addr label
  | defined source =>
      have found := Operand.style.finds source [] (by simp)
      rw [List.append_nil] at found
      refine (finds_value_query found).1.mono ?_
      rintro _ ⟨o, rfl, same⟩
      exact congrArg Value.defined same
  | clone source =>
      have found := Operand.style.finds source [] (by simp)
      rw [List.append_nil] at found
      refine (finds_value_query found).2.mono ?_
      rintro _ ⟨o, rfl, same⟩
      exact congrArg Value.clone same

end Values

section Lines

variable {P : Statement → Prop}

theorem finds_relation (r : Relation) : relation.Finds (.mark r.mark :: rest) rest (· = r) := by
  cases r <;> exact finds_accept rfl

theorem finds_condition (c : Condition) :
    condition.Finds (c.spell ++ .mark .gotoWord :: rest) (.mark .gotoWord :: rest)
      (·.unplaced = c.unplaced) := by
  unfold condition
  cases c with
  | truth operand =>
      have found := Operand.style.finds operand (.mark .gotoWord :: rest) (by simp)
      have unrelated : relation.Fails (.mark .gotoWord :: rest) := fails_accept (by simp)
      refine (found.andThen_fails unrelated).andThen.map.orElse_finds (found.map ?_)
      exact fun o same => congrArg Condition.truth same
  | compare r lhs rhs =>
      have follows : r.mark ≠ .openBracket := by cases r <;> simp [Relation.mark]
      have first := Operand.style.finds lhs
        (.mark r.mark :: (rhs.node.spell ++ .mark .gotoWord :: rest)) (by simpa using follows)
      have second := Operand.style.finds rhs (.mark .gotoWord :: rest) (by simp)
      rw [Condition.spell, List.append_assoc, List.cons_append]
      refine (((first.andThen (finds_relation r)).andThen second).map ?_).orElse
      rintro ⟨⟨a, r'⟩, b⟩ ⟨⟨left, rfl⟩, right⟩
      simp only [Condition.unplaced, left, right]

theorem finds_end : statement.Finds (.directive "end" :: rest) rest (· = .closeSub) := by
  unfold statement
  refine (fails_token (by simp)).andThen.map.map.orElse_finds (Finds.orElse ?_)
  exact finds_token.map fun _ _ => rfl

/-- The statements that begin with no directive. -/
def plainStatement : Reader Statement :=
  ((mark .gotoWord).right name).map .jump
    <|> conditional
    <|> ((keyword "call").right name).map .call
    <|> ((operand.left (mark .equals)).andThen value).map (fun (target, source) =>
      .assign target source)
    <|> instruction

theorem finds_statement_plain (undirected : ∀ text, kinds.head? ≠ some (.directive text))
    (found : plainStatement.Finds kinds rest P) : statement.Finds kinds rest P := by
  unfold statement
  refine (fails_token (undirected "sub")).andThen.map.map.orElse_finds ?_
  refine (fails_token (undirected "end")).map.orElse_finds ?_
  exact (fails_token (undirected "local")).andThen.map.andThen.map.orElse_finds found

theorem finds_call (name : String) :
    statement.Finds (.word "call" :: .word name :: rest) rest (· = .call name) := by
  refine finds_statement_plain (by simp) ?_
  refine (fails_token (by simp)).andThen.map.map.orElse_finds ?_
  refine (fails_conditional (by simp) (by simp)).orElse_finds (Finds.orElse ?_)
  exact (finds_token.right (finds_name name)).map fun _ same => congrArg _ same

theorem finds_branchWord (negated : Bool) :
    ((mark .ifWord).map (fun _ => false) <|> (mark .unlessWord).map fun _ => true).Finds
      (.mark (branchMark negated) :: rest) rest (· = negated) := by
  cases negated with
  | false => exact Finds.orElse (finds_token.map fun _ _ => rfl)
  | true =>
      refine Fails.orElse_finds (fails_token ?_).map (finds_token.map fun _ _ => rfl)
      simp [branchMark]

theorem finds_branch (negated : Bool) (c : Condition) (label : String) :
    statement.Finds (Statement.branch negated c label).spell []
      (·.unplaced = .branch negated c.unplaced label) := by
  have tested : condition.Finds (c.spell ++ [.mark .gotoWord, .word label])
      [.mark .gotoWord, .word label] (·.unplaced = c.unplaced) := finds_condition c
  have test := (finds_branchWord negated).andThen tested
  rw [Statement.spell]
  refine finds_statement_plain (by simp) ?_
  refine (fails_token (by cases negated <;> simp [branchMark])).andThen.map.map.orElse_finds ?_
  refine Finds.orElse (((test.left finds_token).andThen (finds_name label)).map ?_)
  rintro ⟨⟨negated', test⟩, name⟩ ⟨⟨rfl, same⟩, rfl⟩
  exact congrArg (Statement.branch negated' · name) same

/-- An assignment is read as one, unless its target ends the subroutine. -/
theorem finds_assign {target : Located Operand} {v : Value} {Q : Value → Prop}
    (open_ : target.node.base ≠ .typeName "end") (found : value.Finds v.spell [] Q) :
    statement.Finds (Statement.assign target v).spell [] fun s => ∃ o source,
      s = .assign o source ∧ o.unplaced Operand.unplaced = target.unplaced Operand.unplaced ∧
        Q source := by
  have first := Operand.style.finds target (.mark .equals :: v.spell) (by simp)
  refine finds_statement ?_ ?_ ?_ (Finds.orElse ?_)
  · intro ends
    obtain ⟨tail, same⟩ := List.head?_eq_some_iff.mp ends
    exact open_ (target.node.first_token same nofun).1.eq_typeName
  · intro opener _ text more same
    rcases target.node.second_token same with ⟨_, h⟩ | ⟨_, h⟩ | h | h <;> cases h
  · refine fails_conditional ?_ ?_
    · exact Operand.style.head target _ _ (by decide)
    · exact Operand.style.head target _ _ (by decide)
  · refine ((first.left finds_token).andThen found).map ?_
    rintro ⟨o, source⟩ ⟨same, holds⟩
    exact ⟨o, source, rfl, same, holds⟩

/-- An instruction is read as one, unless it calls a word. -/
theorem finds_instruction {text : String} {operands : List (Located Operand)}
    (read : ¬ (Statement.instruction text operands).Misread) :
    statement.Finds (Statement.instruction text operands).spell []
      (·.unplaced = (Statement.instruction text operands).unplaced) := by
  refine (Operand.style.finds_operation text operands ?_).mono ?_
  · intro label more same
    obtain ⟨called, next⟩ := List.cons.inj same
    cases operands with
    | nil => cases next
    | cons first operands =>
        rw [operandKinds_cons] at next
        obtain ⟨base, _⟩ := first.node.first_token next (by simp)
        cases mnemonicKind_cases text with
        | inl isWord =>
            obtain rfl : text = "call" := by simpa [isWord] using called
            exact read (.call base.eq_word)
        | inr marked =>
            obtain ⟨m, _, isMark⟩ := marked
            simp [isMark] at called
  · rintro _ ⟨found, rfl, related⟩
    exact congrArg (Statement.instruction text)
      (map_eq_of_forall₂ (List.forall₂_map_left_iff.mpr related))

theorem finds_statement_spelled {s : Statement} (read : ¬ s.Misread)
    (unlabelled : ∀ name, s ≠ .label name)
    (named : ∀ target type, s = .assign target (.new type) → type.node.NamesType) :
    statement.Finds s.spell [] (·.unplaced = s.unplaced) := by
  cases s with
  | openSub name =>
      exact Finds.orElse ((finds_token.right (finds_name name)).map fun _ same => by rw [same])
  | closeSub => exact finds_end.mono fun _ same => by rw [same]
  | declare type name =>
      unfold statement
      refine (fails_token (by simp [Statement.spell])).andThen.map.map.orElse_finds ?_
      refine (fails_token (by simp [Statement.spell])).map.orElse_finds (Finds.orElse ?_)
      refine ((finds_token.right (finds_name type)).andThen (finds_name name)).map ?_
      rintro ⟨_, _⟩ ⟨rfl, rfl⟩
      rfl
  | label name => exact absurd rfl (unlabelled name)
  | instruction text operands => exact finds_instruction read
  | assign target v =>
      have open_ : target.node.base ≠ .typeName "end" := fun base => read (.closing base)
      have found := finds_value (fun h => read (.value h)) fun type isNew =>
        named target type (congrArg _ isNew)
      refine (finds_assign open_ found).mono ?_
      rintro _ ⟨o, source, rfl, target, value⟩
      simp only [Statement.unplaced, target, value]
  | jump name =>
      refine finds_statement_plain (by simp [Statement.spell]) ?_
      exact Finds.orElse ((finds_token.right (finds_name name)).map fun _ same => by rw [same])
  | call name => exact (finds_call name).mono fun _ same => by rw [same]
  | branch negated c label => exact finds_branch negated c label

/-- A misread statement is read as a statement of another form, or not to its end. -/
theorem finds_statement_misread {s : Statement} (h : s.Misread) :
    ∃ rest, statement.Finds s.spell rest (·.unplaced ≠ s.unplaced) := by
  have closing {target : Located Operand} {v : Value} (base : target.node.base = .typeName "end") :
      ∃ rest, statement.Finds (Statement.assign target v).spell rest
        (·.unplaced ≠ (Statement.assign target v).unplaced) := by
    rw [Statement.spell, Operand.spell, base]
    refine ⟨_, finds_end.mono ?_⟩
    rintro _ rfl
    exact Statement.noConfusion
  cases h with
  | @call first operands label base =>
      change ∃ rest, statement.Finds (.word "call" :: operandKinds _ (first :: operands)) rest _
      rw [operandKinds_cons, Operand.spell, base]
      refine ⟨_, (finds_call label).mono ?_⟩
      rintro _ rfl
      exact Statement.noConfusion
  | closing base => exact closing base
  | @value target v h =>
      by_cases ends : target.node.base = .typeName "end"
      · exact closing ends
      · refine ⟨[], (finds_assign ends (finds_value_misread h)).mono ?_⟩
        rintro _ ⟨o, source, rfl, _, other⟩ same
        exact other (Statement.assign.inj same).2

theorem not_colon_of_spelled {s : Statement} (unlabelled : ∀ name, s ≠ .label name) (text : String)
    (more : List TokenKind) : s.spell ≠ .word text :: .mark .colon :: more := by
  cases s with
  | label name => exact absurd rfl (unlabelled name)
  | instruction mnemonic operands =>
      intro same
      apply Operand.style.head_operandKinds operands (m := .colon) (by decide)
      exact congrArg List.head? (List.cons.inj same).2
  | assign target v =>
      intro same
      rcases target.node.second_token same with ⟨_, h⟩ | ⟨_, h⟩ | h | h <;> cases h
  | openSub | closeSub | declare | jump | call | branch => simp [Statement.spell]

theorem finds_spelled {s : Statement} (read : ¬ s.Misread)
    (named : ∀ target type, s = .assign target (.new type) → type.node.NamesType) :
    labelled.Finds s.spell [] fun found => ∃ s', found = [s'] ∧ s'.node.unplaced = s.unplaced := by
  by_cases labels : ∃ name, s = .label name
  · obtain ⟨name, rfl⟩ := labels
    refine (finds_label name).mono ?_
    rintro _ ⟨s', rfl, isLabel⟩
    exact ⟨s', rfl, by rw [isLabel]⟩
  · have unlabelled : ∀ name, s ≠ .label name := fun name isLabel => labels ⟨name, isLabel⟩
    exact finds_labelled (not_colon_of_spelled unlabelled)
      (finds_statement_spelled read unlabelled named)

theorem finds_misread {s : Statement} (h : s.Misread) :
    ∃ rest, labelled.Finds s.spell rest fun found =>
      ∃ s', found = [s'] ∧ s'.node.unplaced ≠ s.unplaced := by
  obtain ⟨rest, found⟩ := finds_statement_misread h
  refine ⟨rest, finds_labelled (not_colon_of_spelled ?_) found⟩
  rintro name rfl
  cases h

end Lines
end Grammar

section Written

theorem Operand.newline_not_mem (o : Operand) : .newline ∉ o.spell := by
  rw [spell_eq]
  simp [o.base.newline_not_mem, newline_not_mem_groupKinds]

theorem Value.newline_not_mem (v : Value) : .newline ∉ v.spell := by
  cases v <;> simp [spell, Operand.newline_not_mem, Atom.newline_not_mem]

theorem Condition.newline_not_mem (c : Condition) : .newline ∉ c.spell := by
  cases c <;> simp [spell, Operand.newline_not_mem]

/-- A statement fills a line and no more. -/
theorem Statement.spell_plain (s : Statement) : s.spell ≠ [] ∧ .newline ∉ s.spell := by
  cases s with
  | instruction mnemonic operands =>
      exact ⟨List.cons_ne_nil _ _,
        newline_not_mem_operation mnemonic fun o _ => o.node.newline_not_mem⟩
  | assign target v => simp [spell, Operand.newline_not_mem, Value.newline_not_mem]
  | branch negated c name => simp [spell, Condition.newline_not_mem]
  | openSub | closeSub | declare | label | jump | call => simp [spell]

/-- Statements written one to a line. -/
theorem lineTokens_spelled {tokens : List Token} {statements : List Statement}
    (written : tokens.map Token.kind = statements.flatMap (·.spell ++ [.newline])) :
    (lineTokens tokens).map (List.map Token.kind) = statements.map Statement.spell := by
  apply map_lineTokens
  · simpa using fun s _ => s.spell_plain
  · rw [written, List.flatMap_map]

end Written

/-- A file whose lines spell statements is read as these statements, up to their spans, if and only
if none of them is misread. -/
theorem parseTokens_spelled_iff {tokens : List Token} {statements : List Statement}
    (written : (lineTokens tokens).map (List.map Token.kind) = statements.map Statement.spell)
    (named : ∀ target type, .assign target (.new type) ∈ statements → type.node.NamesType) :
    (∃ found, parseTokens tokens = .ok found ∧
      found.map (·.node.unplaced) = statements.map Statement.unplaced) ↔
      ∀ s ∈ statements, ¬ s.Misread := by
  have spelled (s : Statement) (mem : s ∈ statements) (read : ¬ s.Misread) :
      labelled.Finds s.spell [] fun found =>
        ∃ s', found = [s'] ∧ s'.node.unplaced = s.unplaced :=
    finds_spelled read fun target type isNew => named target type (isNew ▸ mem)
  constructor
  · rintro ⟨found, parsed, same⟩
    have each : List.Forall₂ (fun (s : Statement) (s' : Located Statement) =>
        s'.node.unplaced = s.unplaced → ¬ s.Misread) statements found := by
      refine forall₂_of_parseTokens written (fun s mem => ?_) parsed
      by_cases misread : s.Misread
      · obtain ⟨rest, found⟩ := finds_misread misread
        refine ⟨rest, found.mono ?_⟩
        rintro _ ⟨s', rfl, other⟩
        exact ⟨s', rfl, fun same => absurd same other⟩
      · refine ⟨[], (spelled s mem misread).mono ?_⟩
        rintro _ ⟨s', rfl, _⟩
        exact ⟨s', rfl, fun _ => misread⟩
    have both : List.Forall₂ Eq (found.map (·.node.unplaced)) (statements.map Statement.unplaced) :=
      List.forall₂_eq_eq_eq ▸ same
    have equal := (List.forall₂_map_left_iff.mp (List.forall₂_map_right_iff.mp both)).flip
    refine ((List.forall₂_and_left (R := fun _ _ => True) _ _).mp (each.mp ?_ equal)).1
    exact fun _ _ read same => ⟨read same, trivial⟩
  · intro read
    obtain ⟨found, parsed, each⟩ := parseTokens_of_lines written fun s mem =>
      spelled s mem (read s mem)
    exact ⟨found, parsed, map_eq_of_forall₂ (List.forall₂_map_left_iff.mpr each)⟩

section Sample

def Atom.bare (a : Atom) : Located Operand := ⟨⟨a, []⟩, ⟨0, 0⟩⟩

/-- Statements that come close to the misread ones. -/
def nearlyMisread : List Statement :=
  [.assign (Atom.bare (.word "x"))
     (.binary .sub (Atom.bare (.word "defined")) (Atom.bare (.register "$I0"))),
   .assign (Atom.bare (.word "x"))
     (.binary .sub (Atom.bare (.word "clone")) (Atom.bare (.integer (-1)))),
   .assign (Atom.bare (.typeName "sub")) (.unary .neg (Atom.bare (.float "-1.5"))),
   .assign (Atom.bare (.word "addr")) (.new ⟨.typeName "Integer", ⟨0, 0⟩⟩),
   .instruction "call"
     [⟨⟨.register "$P0", [⟨.integer (-1), ⟨0, 0⟩⟩]⟩, ⟨0, 0⟩⟩, Atom.bare (.word "L")],
   .instruction "if" [Atom.bare (.word "x"), Atom.bare (.word "L")],
   .branch true (.compare .lt (Atom.bare (.word "call")) (Atom.bare (.integer (-1)))) "L",
   .label "call"]

/-- Each of them is read as it is meant. -/
theorem parseTokens_nearlyMisread :
    ∃ found, parseTokens ((nearlyMisread.flatMap (·.spell ++ [.newline])).map (⟨·, ⟨0, 0⟩⟩)) =
        .ok found ∧
      found.map (·.node.unplaced) = nearlyMisread.map Statement.unplaced := by
  refine (parseTokens_spelled_iff (lineTokens_spelled ?_) ?_).mpr ?_
  · rw [List.map_map]
    exact List.map_id _
  · simp [nearlyMisread, Atom.NamesType]
  · simp only [nearlyMisread, List.forall_mem_cons]
    refine ⟨?_, ?_, ?_, ?_, ?_, ?_, ?_, ?_, by simp⟩
    · rintro (_ | base | ⟨_, _, _, literal⟩)
      · cases base
      · exact literal
    · rintro (_ | base | ⟨_, _, _, literal⟩)
      · cases base
      · exact absurd (show (0 : Int) ≤ -1 from literal) (by decide)
    · rintro (_ | base | ⟨_ | literal⟩)
      · exact absurd base (by decide)
      · exact literal rfl
    · rintro (_ | base | other)
      · cases base
      · cases other
    · rintro (base | _)
      cases base
    · exact fun called => absurd called.mnemonic_eq (by decide)
    · rintro ⟨⟩
    · rintro ⟨⟩

end Sample

end OpSelect
