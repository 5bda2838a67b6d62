import OpSelect.Proofs.Program.Origin
import OpSelect.Proofs.Program.Spelling

/-!
Integer literals mean their numerals. An integer of a statement stands in the text as a numeral of
any length, in one of three bases, with or without a minus sign in front of it. The sign is not part
of the numeral, which has to fit a signed word by itself: then it is never reported on, and it
always is if it does not.
-/

namespace OpSelect

section Pieces

variable {cs digits : List Char} {front back before pieces : List Lexeme} {piece : Lexeme}

theorem placedAfter_append (before pieces others : List Lexeme) :
    placedAfter before (pieces ++ others) =
      placedAfter before pieces ++ placedAfter (before ++ pieces) others := by
  induction pieces generalizing before with
  | nil => simp [placedAfter]
  | cons piece pieces ih =>
      rw [List.cons_append, placedAfter_cons, placedAfter_cons, ih]
      simp

/-- The bytes that a text takes up behind the pieces. -/
def spanAfter (front : List Lexeme) (text : List Char) : Span where
  start := byteSize (front.flatMap Lexeme.text)
  stop := byteSize (front.flatMap Lexeme.text) + byteSize text

theorem placed_append_cons (front : List Lexeme) (piece : Lexeme) (back : List Lexeme) :
    placed (front ++ piece :: back) =
      placed front ++
        (piece, spanAfter front piece.text) :: placedAfter (front ++ [piece]) back := by
  have whole := placedAfter_append [] front (piece :: back)
  rw [placedAfter_cons] at whole
  exact whole

/-- A placed piece stands behind the pieces before it. -/
theorem eq_of_placed {front back : List (Lexeme × Span)} {span : Span}
    (split : placed pieces = front ++ (piece, span) :: back) :
    pieces = front.map Prod.fst ++ piece :: back.map Prod.fst ∧
      span = spanAfter (front.map Prod.fst) piece.text := by
  have names : pieces = front.map Prod.fst ++ piece :: back.map Prod.fst := by
    rw [← map_fst_placed pieces, split, List.map_append, List.map_cons]
  have again := placed_append_cons (front.map Prod.fst) piece (back.map Prod.fst)
  rw [← names, split] at again
  have length : front.length = (placed (front.map Prod.fst)).length := by simp [placed]
  obtain ⟨_, here⟩ := List.append_inj again length
  exact ⟨names, congrArg Prod.snd (List.cons.inj here).1⟩

/-- Pieces lie behind those that were placed before, and within the text that they make up. -/
theorem placedAfter_within (before pieces : List Lexeme) :
    ∀ place ∈ placedAfter before pieces,
      byteSize (before.flatMap Lexeme.text) ≤ place.2.start ∧
        place.2.stop ≤ byteSize ((before ++ pieces).flatMap Lexeme.text) := by
  intro place mem
  obtain ⟨⟨piece, position⟩, isAt, rfl⟩ := List.mem_map.mp mem
  dsimp only
  have whole : before ++ pieces =
      before ++ pieces.take (position + 1) ++ pieces.drop (position + 1) := by simp
  constructor
  · rw [List.flatMap_append, byteSize_append]
    omega
  · conv => rhs; rw [whole, List.flatMap_append, byteSize_append]
    omega

theorem tokenOf_eq_some {place : Lexeme × Span} {t : Token} :
    tokenOf place = some t ↔ place.1.cls = .token t.kind ∧ place.2 = t.span := by
  obtain ⟨⟨text, cls⟩, span⟩ := place
  obtain ⟨kind, other⟩ := t
  cases cls <;> simp [tokenOf]

theorem reportOf_eq_some {place : Lexeme × Span} {d : Diagnostic} :
    reportOf place = some d ↔ place.1.cls = .bad ∧ badLexeme place.2 place.1.text = d := by
  obtain ⟨⟨text, cls⟩, span⟩ := place
  cases cls <;> simp [reportOf]

theorem skipped_of_tokenOf {place : Lexeme × Span} (none : tokenOf place = none)
    (good : place.1.cls ≠ .bad) : place.1.cls = .skipped := by
  obtain ⟨⟨text, cls⟩, span⟩ := place
  cases cls with
  | skipped => rfl
  | token kind => cases none
  | bad => exact absurd rfl good

/-- The first token comes from a piece behind pieces that have none. -/
theorem place_of_token {places : List (Lexeme × Span)} {t : Token} {after : List Token}
    (split : places.filterMap tokenOf = t :: after) :
    ∃ gap piece back, places = gap ++ (piece, t.span) :: back ∧
      (∀ place ∈ gap, tokenOf place = none) ∧ piece.cls = .token t.kind ∧
      back.filterMap tokenOf = after := by
  obtain ⟨gap, ⟨piece, span⟩, back, whole, none, isToken, rest⟩ :=
    List.filterMap_eq_cons_iff.mp split
  obtain ⟨cls, rfl⟩ := tokenOf_eq_some.mp isToken
  exact ⟨gap, piece, back, whole, none, cls, rest⟩

/-- Every token comes from a piece, and the tokens behind it from the pieces behind that one. -/
theorem piece_of_token {t : Token} {earlier after : List Token}
    (split : (placed pieces).filterMap tokenOf = earlier ++ t :: after) :
    ∃ (front : List Lexeme) (piece : Lexeme) (places : List (Lexeme × Span)),
      pieces = front ++ piece :: places.map Prod.fst ∧
        t.span = spanAfter front piece.text ∧ piece.cls = .token t.kind ∧
        places.filterMap tokenOf = after := by
  obtain ⟨before, behind, whole, _, rest⟩ := List.filterMap_eq_append_iff.mp split
  obtain ⟨gap, piece, places, rfl, _, cls, rest⟩ := place_of_token rest
  rw [← List.append_assoc] at whole
  obtain ⟨names, span⟩ := eq_of_placed whole
  exact ⟨_, piece, places, names, span, cls, rest⟩

section Outcome

variable {source : String} {text : List Char}

/-- A piece with a token gives that token, and what is reported lies before or behind it. -/
theorem outcome_of_token {kind : TokenKind}
    (split : lexemes source.toList = front ++ ⟨text, .token kind⟩ :: back) :
    (∀ tokens, tokenize source = .ok tokens → ⟨kind, spanAfter front text⟩ ∈ tokens) ∧
      ∀ reports, tokenize source = .error reports → ∀ d ∈ reports,
        d.span.stop ≤ (spanAfter front text).start ∨
          (spanAfter front text).stop ≤ d.span.start := by
  have places := placed_append_cons front ⟨text, .token kind⟩ back
  rw [tokenize_eq, split]
  constructor
  · intro tokens lexed
    split at lexed
    · cases lexed
      rw [places]
      exact List.mem_filterMap.mpr ⟨_, List.mem_append_right _ List.mem_cons_self, rfl⟩
    · cases lexed
  · intro reports lexed d mem
    split at lexed
    · cases lexed
    · cases lexed
      obtain ⟨place, isPlace, isReport⟩ := List.mem_filterMap.mp mem
      obtain ⟨bad, rfl⟩ := reportOf_eq_some.mp isReport
      rw [places] at isPlace
      rcases List.mem_append.mp isPlace with earlier | here | ⟨_, later⟩
      · exact .inl (placedAfter_within [] front place earlier).2
      · cases bad
      · have after := (placedAfter_within _ back place later).1
        simp only [List.flatMap_append, List.flatMap_singleton, byteSize_append] at after
        exact .inr after

/-- A bad piece is reported on as a whole. -/
theorem outcome_of_bad (split : lexemes source.toList = front ++ ⟨text, .bad⟩ :: back) :
    ∃ reports, tokenize source = .error reports ∧
      badLexeme (spanAfter front text) text ∈ reports := by
  have places := placed_append_cons front ⟨text, .bad⟩ back
  have bad : ¬ ∀ piece ∈ front ++ ⟨text, .bad⟩ :: back, piece.cls ≠ .bad :=
    fun good => good ⟨text, .bad⟩ (List.mem_append_right _ List.mem_cons_self) rfl
  rw [tokenize_eq, split, if_neg bad, places]
  exact ⟨_, rfl, List.mem_filterMap.mpr ⟨_, List.mem_append_right _ List.mem_cons_self, rfl⟩⟩

end Outcome

/-- A pattern that takes a text where a piece begins has taken the piece. -/
theorem piece_of_takes {p : Pattern} (split : lexemes cs = front ++ back)
    (takes : p.Takes (back.flatMap Lexeme.text) digits) :
    ∃ cls rest, back = ⟨digits, cls⟩ :: rest ∧ p.Denotes digits cls := by
  have starts := (starts_iff_isPrefix takes.isStart).mpr takes.mem
  have nonempty : digits ≠ [] := fun none => p.nil_not_mem (none ▸ takes.mem)
  cases back with
  | nil => exact absurd (List.prefix_nil.mp takes.isStart) nonempty
  | cons piece rest =>
      obtain ⟨_, munch⟩ := munch_of_mem split
      cases munch with
      | @taken q text cls takes' denotes =>
          have longer := takes'.longest p _ starts
          have shorter := takes.longest q _
            ((starts_iff_isPrefix takes'.isStart).mpr takes'.mem)
          obtain rfl : digits = text :=
            (List.prefix_of_prefix_length_le takes.isStart takes'.isStart longer).eq_of_length_le
              shorter
          obtain rfl := takes.unique takes'
          exact ⟨cls, rest, rfl, denotes⟩
      | stray isStart none =>
          exact absurd (List.length_eq_zero_iff.mp (none p _ starts)) nonempty

theorem integer_of_piece {value : Nat} (split : lexemes cs = front ++ piece :: back)
    (cls : piece.cls = .token (.integer value)) :
    piece.text ∈ Pattern.language .integer ∧ Numeral piece.text value ∧ value ≤ maxInteger := by
  obtain ⟨_, munch⟩ := munch_of_mem split
  cases munch with
  | taken takes denotes =>
      cases cls
      cases denotes with
      | integer _ _ numeral fits => exact ⟨takes.mem, numeral, fits⟩
  | stray => cases cls

theorem mark_of_piece {m : Mark} (split : lexemes cs = front ++ piece :: back)
    (cls : piece.cls = .token (.mark m)) : piece = ⟨m.text.toList, .token (.mark m)⟩ := by
  obtain ⟨_, munch⟩ := munch_of_mem split
  cases munch with
  | taken takes denotes =>
      cases cls
      cases denotes with
      | mark => rw [Pattern.mem_mark.mp takes.mem]
  | stray => cases cls

end Pieces

/-- A minus sign, and then only layout and comments. -/
def MinusSign (pieces : List Lexeme) : Prop :=
  ∃ gap, pieces = ⟨['-'], .token (.mark .minus)⟩ :: gap ∧ ∀ piece ∈ gap, piece.cls = .skipped

/-- The integer is written at the offset of the text: a numeral that fits a word by itself, and
maybe a minus sign before it. -/
def IntegerAt (text : List Char) (offset : Nat) (v : Int) : Prop :=
  ∃ front sign digits value back,
    lexemes text = front ++ (sign ++ ⟨digits, .token (.integer value)⟩ :: back) ∧
      byteSize (front.flatMap Lexeme.text) = offset ∧
      digits ∈ Pattern.language .integer ∧ Numeral digits value ∧ value < 2 ^ 63 ∧
      (sign = [] ∧ v = value ∨ MinusSign sign ∧ v = -value)

theorem le_maxInteger_iff {value : Nat} : value ≤ maxInteger ↔ value < 2 ^ 63 := by
  unfold maxInteger
  omega

/-- An integer that is written with tokens is written with their pieces. -/
theorem integerAt_of_standsIn {source : String} {tokens : List Token} {offset : Nat} {v : Int}
    (lexed : tokenize source = .ok tokens) (stands : (Atom.integer v).StandsIn tokens offset) :
    IntegerAt source.toList offset v := by
  obtain ⟨before, t, taken, after, split, rfl, written⟩ := stands
  rw [tokenize_eq] at lexed
  split at lexed
  · rename_i good
    cases lexed
    obtain ⟨front, piece, places, pieces, span, cls, rest⟩ := piece_of_token split
    have start : byteSize (front.flatMap Lexeme.text) = t.span.start := by
      rw [span]
      rfl
    generalize kinds : (t :: taken).map Token.kind = shown at written
    cases written with
    | integer value =>
        obtain ⟨kind, _⟩ := List.cons.inj kinds
        rw [kind] at cls
        obtain ⟨word, numeral, fits⟩ := integer_of_piece pieces cls
        obtain ⟨digits, _⟩ := piece
        cases cls
        exact ⟨front, [], digits, value, _, pieces, start, word, numeral,
          le_maxInteger_iff.mp fits, .inl ⟨rfl, rfl⟩⟩
    | negative value =>
        obtain ⟨kind, others⟩ := List.cons.inj kinds
        obtain ⟨number, more, rfl, isNumber, _⟩ := List.map_eq_cons_iff.mp others
        rw [kind] at cls
        obtain rfl := mark_of_piece pieces cls
        -- the number comes from a later piece, with nothing but layout before it
        obtain ⟨gap, numeral, back, rfl, skips, isLiteral, _⟩ := place_of_token rest
        rw [isNumber] at isLiteral
        have whole : lexemes source.toList = front ++ (⟨['-'], .token (.mark .minus)⟩ ::
            gap.map Prod.fst ++ numeral :: back.map Prod.fst) := by
          rw [pieces, List.map_append]
          rfl
        have later := whole
        rw [← List.append_assoc] at later
        obtain ⟨word, isNumeral, fits⟩ := integer_of_piece later isLiteral
        obtain ⟨digits, _⟩ := numeral
        cases isLiteral
        refine ⟨front, _, digits, value, _, whole, start, word, isNumeral,
          le_maxInteger_iff.mp fits, .inr ⟨⟨gap.map Prod.fst, rfl, ?_⟩, rfl⟩⟩
        refine List.forall_mem_map.mpr fun place mem => skipped_of_tokenOf (skips place mem) ?_
        refine good place.1 ?_
        rw [whole]
        simp [List.mem_map_of_mem mem]
  · cases lexed

theorem tokenize_of_parse {source : String} {statements : List (Located Statement)}
    (parsed : parse source = .ok statements) :
    ∃ tokens, tokenize source = .ok tokens ∧
      statements = (Reading.ofTokens tokens).statements := by
  unfold parse at parsed
  cases lexed : tokenize source with
  | error reports =>
      rw [lexed] at parsed
      cases parsed
  | ok tokens =>
      rw [lexed] at parsed
      exact ⟨tokens, rfl, (parseTokens_eq_ok.mp parsed).2⟩

/-- Integers mean their numerals. Each integer of a text that is read is written where it begins,
as a numeral of its absolute value, and a negative one has a minus sign before it. Wherever the
text has a numeral, it is cut off as a whole. A numeral below `2 ^ 63` becomes a token of its value,
which can be an operand with and without a sign, and no report touches it; any other is reported
on. -/
theorem integers_mean_numerals (source : String) :
    (∀ statements, parse source = .ok statements → ∀ s ∈ statements, ∀ offset v,
      (offset, .integer v) ∈ s.node.atoms → IntegerAt source.toList offset v) ∧
    (∀ front back digits, lexemes source.toList = front ++ back →
      Pattern.Takes .integer (back.flatMap Lexeme.text) digits →
      ∃ value, Numeral digits value ∧
        (value < 2 ^ 63 →
          (∀ tokens, tokenize source = .ok tokens →
            ⟨.integer value, spanAfter front digits⟩ ∈ tokens) ∧
          ∀ reports, tokenize source = .error reports → ∀ d ∈ reports,
            d.span.stop ≤ (spanAfter front digits).start ∨
              (spanAfter front digits).stop ≤ d.span.start) ∧
        (2 ^ 63 ≤ value → ∃ reports, tokenize source = .error reports ∧
          badLexeme (spanAfter front digits) digits ∈ reports)) ∧
    ∀ stop sign number rest (value : Nat), sign.kind = .mark .minus →
      number.kind = .integer value →
      (Grammar.atom.run ⟨stop, number :: rest⟩).result =
          some (.integer value, ⟨number.span.stop, rest⟩) ∧
        (Grammar.atom.run ⟨stop, sign :: number :: rest⟩).result =
          some (.integer (-value), ⟨number.span.stop, rest⟩) := by
  refine ⟨?_, ?_, ?_⟩
  · intro statements parsed s mem offset v isAtom
    obtain ⟨tokens, lexed, rfl⟩ := tokenize_of_parse parsed
    obtain ⟨o, isOperand, isPlace⟩ := List.mem_flatMap.mp isAtom
    have stands := Reading.ofTokens_standIn tokens s mem o isOperand _ isPlace
    exact integerAt_of_standsIn lexed stands
  · intro front back digits split takes
    obtain ⟨cls, rest, rfl, denotes⟩ := piece_of_takes split takes
    cases denotes with
    | integer _ value numeral fits =>
        have small := le_maxInteger_iff.mp fits
        refine ⟨value, numeral, fun _ => outcome_of_token split, fun large => ?_⟩
        exact absurd small (Nat.not_lt_of_le large)
    | overflow _ value numeral tooLarge =>
        refine ⟨value, numeral, fun small => ?_, fun _ => outcome_of_bad split⟩
        exact absurd (le_maxInteger_iff.mpr small) (Nat.not_le_of_lt tooLarge)
  · intro stop sign number rest value isSign isNumber
    simp [Grammar.atom, Grammar.unsignedAtom, Grammar.negatedNumber, Reader.mark, Reader.token,
      Reader.right, isSign, isNumber]

/-- A key with leading zeros, and a number with its sign apart. -/
def numeralSource : String := "x[007] = - 0xfF"

theorem integers_mean_numerals_signed :
    ∃ statements s, parse numeralSource = .ok statements ∧ s ∈ statements ∧
      s.node.atoms = [(0, .word "x"), (2, .integer 7), (9, .integer (-255))] ∧
      IntegerAt numeralSource.toList 2 7 ∧ IntegerAt numeralSource.toList 9 (-255) := by
  have shown : (parse numeralSource).map (fun statements => statements.map (·.node.atoms)) =
      .ok [[(0, .word "x"), (2, .integer 7), (9, .integer (-255))]] := by decide +kernel
  cases parsed : parse numeralSource with
  | error diagnostics =>
      rw [parsed] at shown
      cases shown
  | ok statements =>
      rw [parsed] at shown
      obtain ⟨s, others, rfl, atoms, _⟩ := List.map_eq_cons_iff.mp (Except.ok.inj shown)
      have meaning := (integers_mean_numerals numeralSource).1 _ parsed s List.mem_cons_self
      refine ⟨_, s, rfl, List.mem_cons_self, atoms, meaning 2 7 ?_, meaning 9 (-255) ?_⟩
      · simp [atoms]
      · simp [atoms]

/-- The sign does not make a numeral fit. -/
example : tokenize "- 0x08000000000000000" =
    .error [badLexeme ⟨2, 21⟩ "0x08000000000000000".toList] := by
  decide +kernel

end OpSelect
