import OpSelect.Proofs.Token.Chunk

/-!
Keys in one pair of brackets, written in more of them. `splitKeys` writes some of the semicolons
of a text as `][`. A bracket ends every word that a semicolon ends, and it goes on with the same
words, comments and strings; so the pieces of the new text are those of the old one with two
brackets in place of each semicolon that was chosen, and nothing else about them changes.
-/

namespace OpSelect

/-- What a piece is written as: a chosen semicolon closes a pair of brackets and opens another. -/
def Lexeme.split (chosen : Bool) (piece : Lexeme) : List Lexeme :=
  if chosen ∧ piece.cls = .token (.mark .semicolon) then
    [⟨[']'], .token (.mark .closeBracket)⟩, ⟨['['], .token (.mark .openBracket)⟩]
  else [piece]

/-- The pieces with the semicolons at the chosen places split. -/
def splitPieces (chosen : Nat → Bool) : List Lexeme → List Lexeme
  | [] => []
  | piece :: pieces =>
      piece.split (chosen 0) ++ splitPieces (fun place => chosen (place + 1)) pieces

/-- The text with the semicolons among its pieces written as `][` where they are chosen. -/
def splitKeys (chosen : Nat → Bool) (source : String) : String :=
  String.ofList ((splitPieces chosen (lexemes source.toList)).flatMap Lexeme.text)

/-- Tokens where some semicolons are a closing and an opening bracket. -/
inductive KeySplit : List TokenKind → List TokenKind → Prop where
  | nil : KeySplit [] []
  | keep (kind : TokenKind) {kinds others : List TokenKind} (h : KeySplit kinds others) :
      KeySplit (kind :: kinds) (kind :: others)
  | split {kinds others : List TokenKind} (h : KeySplit kinds others) :
      KeySplit (.mark .semicolon :: kinds)
        (.mark .closeBracket :: .mark .openBracket :: others)

namespace Pattern

variable {p q : Pattern} {text common rest other : List Char} {n : Nat}

/-- A closing bracket stands alone, in a string or in a comment. -/
theorem holds_bracket (mem : text ∈ q.language) (bracket : ']' ∈ text) :
    q = .mark .closeBracket ∨ q = .string ∨ q = .comment := by
  have inside := goesOn_of_mem mem ']' bracket
  cases q with
  | mark m =>
      have texts : ∀ m ∈ Mark.all, ']' ∈ m.text.toList → m = .closeBracket := by decide +kernel
      rw [mem_mark.mp mem] at bracket
      rw [texts m (mem_markAll m) bracket]
      exact .inl rfl
  | directive =>
      have name : AllIn isWordChar nameLanguage :=
        (allIn_oneOf fun _ => isWordChar_of_isWordStart).mul (allIn_kstar fun _ h => h)
      obtain ⟨_, ⟨c, isPoint, rfl⟩, word, isName, rfl⟩ := Language.mem_mul.mp mem
      rcases List.mem_append.mp bracket with first | later
      · rw [← List.mem_singleton.mp first] at isPoint
        cases isPoint
      · cases name word isName ']' later
  | string => exact .inr (.inl rfl)
  | comment => exact .inr (.inr rfl)
  | newline | float | integer | register | word | layout => cases inside

theorem eq_string_of_lead (h : p.lead = .quote) : p = .string := by
  cases p with
  | mark m => cases m <;> cases h
  | string => rfl
  | newline | directive | float | integer | register | word | layout | comment => cases h

/-- No string begins with another. -/
theorem starts_string_unique {cs : List Char} {m : Nat} (h : Starts (language .string) cs n)
    (k : Starts (language .string) cs m) : n = m := by
  obtain ⟨_, inside, n, rfl, _, rfl, closed⟩ := starts_oneOf_mul.mp h
  obtain ⟨_, _, m, ⟨⟩, _, rfl, closed'⟩ := starts_oneOf_mul.mp k
  have first := starts_stringEnd.mp closed
  rw [starts_stringEnd.mp closed'] at first
  cases first
  rfl

theorem mem_comment {c : Char} :
    c :: text ∈ language .comment ↔ c = '#' ∧ ∀ d ∈ text, d ≠ '\r' ∧ d ≠ '\n' := by
  have inside : text ∈ KStar.kstar (oneOf fun d => d != '\r' && d != '\n') ↔
      ∀ d ∈ text, d ≠ '\r' ∧ d ≠ '\n' := by
    rw [mem_kstar_oneOf]
    simp
  rw [← inside, language, Language.mem_mul]
  constructor
  · rintro ⟨_, ⟨d, isHash, rfl⟩, later, isInside, same⟩
    obtain ⟨rfl, rfl⟩ := List.cons.inj same
    exact ⟨beq_iff_eq.mp isHash, isInside⟩
  · rintro ⟨rfl, isInside⟩
    exact ⟨['#'], ⟨'#', rfl, rfl⟩, text, isInside, rfl⟩

/-- What is taken before a semicolon is taken before a bracket. A longer word would reach the
bracket, so it would be a string, which ends where it did, or a comment, which went on before. -/
theorem Takes.before_bracket (h : p.Takes (text ++ (common ++ ';' :: rest)) text) :
    p.Takes (text ++ (common ++ ']' :: other)) text := by
  refine ⟨List.prefix_append _ _, h.mem, ?_, h.keyword⟩
  intro q n starts
  rw [← List.append_assoc] at h starts
  by_contra longer
  by_cases short : n ≤ (text ++ common).length
  · refine longer (h.longest q n ⟨?_, ?_⟩)
    · rw [List.length_append]
      omega
    · have word := starts.2
      rw [List.take_append_of_le_length short] at word
      rwa [List.take_append_of_le_length short]
  · obtain ⟨k, rfl⟩ : ∃ k, n = (text ++ common).length + (k + 1) :=
      ⟨n - (text ++ common).length - 1, by omega⟩
    have word : text ++ common ++ ']' :: other.take k ∈ q.language := by
      have taken := starts.2
      rwa [List.take_length_add_append, List.take_succ_cons] at taken
    cases text with
    | nil => exact nil_not_mem p h.mem
    | cons c text =>
        have same : p.lead = q.lead := (lead_of_mem h.mem).symm.trans (lead_of_mem word)
        rcases holds_bracket word (by simp) with rfl | rfl | rfl
        · have length := congrArg List.length (mem_mark.mp word)
          simp [Mark.text] at length
        · obtain rfl := eq_string_of_lead same
          have whole := (starts_iff_isPrefix
            (show c :: text <+: c :: text ++ common ++ ']' :: other by simp)).mpr h.mem
          have length := starts_string_unique starts whole
          omega
        · obtain ⟨isHash, plain⟩ := mem_comment.mp word
          have goesOn : c :: text ++ common ++ [';'] ∈ language .comment := by
            refine mem_comment.mpr ⟨isHash, fun d mem => ?_⟩
            rcases List.mem_append.mp mem with mem | mem
            · exact plain d (List.mem_append_left _ mem)
            · rw [List.mem_singleton.mp mem]
              decide
          have starts' := (starts_iff_isPrefix (L := language .comment)
            (show c :: text ++ common ++ [';'] <+: c :: text ++ common ++ ';' :: rest by
              simp)).mpr goesOn
          have length := h.longest _ _ starts'
          simp at length

end Pattern

section Pieces

variable {cs : List Char} {pieces : List Lexeme} {piece : Lexeme}

theorem Lexeme.split_kept {chosen : Bool}
    (h : ¬ (chosen = true ∧ piece.cls = .token (.mark .semicolon))) :
    piece.split chosen = [piece] :=
  if_neg h

theorem Lexeme.split_semicolon {chosen : Bool} (isChosen : chosen = true)
    (semicolon : piece.cls = .token (.mark .semicolon)) :
    piece.split chosen =
      [⟨[']'], .token (.mark .closeBracket)⟩, ⟨['['], .token (.mark .openBracket)⟩] :=
  if_pos ⟨isChosen, semicolon⟩

/-- The first piece of a text that has no bad ones. -/
theorem exists_takes (cut : lexemes cs = piece :: pieces) (good : piece.cls ≠ .bad) :
    ∃ (p : Pattern) (rest : List Char), cs = piece.text ++ rest ∧ p.Takes cs piece.text ∧
      piece.cls = p.classify piece.text ∧ lexemes rest = pieces := by
  have nonempty : cs ≠ [] := by
    rintro rfl
    rw [lexemes] at cut
    cases cut
  obtain ⟨first, _, munch, eq⟩ := lexemes_eq_cons nonempty
  rw [eq] at cut
  obtain ⟨rfl, _⟩ := List.cons.inj cut
  cases munch with
  | stray => exact absurd rfl good
  | @taken p text cls takes denotes =>
      obtain ⟨rest, rfl⟩ := takes.isStart
      have pieces' := Pattern.lexemes_of_takes takes
      rw [eq] at pieces'
      obtain ⟨same, later⟩ := List.cons.inj pieces'
      refine ⟨p, rest, rfl, takes, (Lexeme.mk.inj same).2, ?_⟩
      rw [← later]
      exact (List.cons.inj cut).2

theorem text_of_semicolon {p : Pattern} {text : List Char} (mem : text ∈ p.language)
    (isSemicolon : p.classify text = .token (.mark .semicolon)) : text = [';'] := by
  cases p with
  | mark m =>
      cases isSemicolon
      exact mem
  | integer =>
      rw [Pattern.classify] at isSemicolon
      split at isSemicolon <;> cases isSemicolon
  | newline | directive | string | float | register | word | layout | comment => cases isSemicolon

/-- The text of split pieces is the old one up to the first semicolon that is split. -/
theorem text_of_splitPieces (cut : lexemes cs = pieces) (good : ∀ piece ∈ pieces, piece.cls ≠ .bad)
    (chosen : Nat → Bool) :
    (splitPieces chosen pieces).flatMap Lexeme.text = cs ∨
      ∃ common rest other, cs = common ++ ';' :: rest ∧
        (splitPieces chosen pieces).flatMap Lexeme.text = common ++ ']' :: other := by
  induction pieces generalizing cs chosen with
  | nil =>
      left
      rw [← flatMap_lexemes cs, cut]
      rfl
  | cons piece pieces ih =>
      obtain ⟨isGood, others⟩ := List.forall_mem_cons.mp good
      obtain ⟨p, rest, rfl, takes, isClass, later⟩ := exists_takes cut isGood
      rw [splitPieces]
      by_cases split : chosen 0 = true ∧ piece.cls = .token (.mark .semicolon)
      · have text := text_of_semicolon takes.mem (isClass ▸ split.2)
        rw [Lexeme.split_semicolon split.1 split.2, text]
        exact .inr ⟨[], rest, _, rfl, rfl⟩
      · rw [Lexeme.split_kept split, List.singleton_append, List.flatMap_cons]
        rcases ih later others fun place => chosen (place + 1) with same | parted
        · exact .inl (congrArg (piece.text ++ ·) same)
        · obtain ⟨common, old, new, rfl, text⟩ := parted
          refine .inr ⟨piece.text ++ common, old, new, ?_, ?_⟩
          · rw [List.append_assoc]
          · rw [text, List.append_assoc]

/-- The pieces of the new text, by induction on those of the old one. -/
theorem lexemes_splitPieces (cut : lexemes cs = pieces) (good : ∀ piece ∈ pieces, piece.cls ≠ .bad)
    (chosen : Nat → Bool) :
    lexemes ((splitPieces chosen pieces).flatMap Lexeme.text) = splitPieces chosen pieces := by
  induction pieces generalizing cs chosen with
  | nil =>
      rw [splitPieces, List.flatMap_nil, lexemes]
  | cons piece pieces ih =>
      obtain ⟨isGood, others⟩ := List.forall_mem_cons.mp good
      obtain ⟨p, rest, rfl, takes, isClass, later⟩ := exists_takes cut isGood
      have next := ih later others fun place => chosen (place + 1)
      have texts := text_of_splitPieces later others fun place => chosen (place + 1)
      rw [splitPieces]
      generalize splitPieces (fun place => chosen (place + 1)) pieces = after at next texts ⊢
      by_cases split : chosen 0 = true ∧ piece.cls = .token (.mark .semicolon)
      · rw [Lexeme.split_semicolon split.1 split.2]
        have closes := Pattern.lexemes_of_takes
          (Pattern.takes_sign (m := .closeBracket) (by decide) ('[' :: after.flatMap Lexeme.text))
        have opens := Pattern.lexemes_of_takes
          (Pattern.takes_sign (m := .openBracket) (by decide) (after.flatMap Lexeme.text))
        rw [next] at opens
        exact closes.trans (congrArg _ opens)
      · rw [Lexeme.split_kept split, List.singleton_append, List.flatMap_cons]
        have takes' : p.Takes (piece.text ++ after.flatMap Lexeme.text) piece.text := by
          rcases texts with same | ⟨common, old, new, rfl, text⟩
          · rwa [same]
          · rw [text]
            exact takes.before_bracket
        rw [Pattern.lexemes_of_takes takes', next, ← isClass]

theorem splitPieces_good (good : ∀ piece ∈ pieces, piece.cls ≠ .bad) (chosen : Nat → Bool) :
    ∀ piece ∈ splitPieces chosen pieces, piece.cls ≠ .bad := by
  induction pieces generalizing chosen with
  | nil => exact good
  | cons piece pieces ih =>
      obtain ⟨isGood, others⟩ := List.forall_mem_cons.mp good
      refine List.forall_mem_append.mpr ⟨?_, ih others _⟩
      unfold Lexeme.split
      split
      · simp
      · simpa using isGood

theorem keySplit_splitPieces (pieces : List Lexeme) (chosen : Nat → Bool) :
    KeySplit (pieces.filterMap Lexeme.kind?)
      ((splitPieces chosen pieces).filterMap Lexeme.kind?) := by
  induction pieces generalizing chosen with
  | nil => exact .nil
  | cons piece pieces ih =>
      have others := ih fun place => chosen (place + 1)
      rw [splitPieces]
      by_cases split : chosen 0 = true ∧ piece.cls = .token (.mark .semicolon)
      · have isKind : piece.kind? = some (.mark .semicolon) := by rw [Lexeme.kind?, split.2]
        rw [Lexeme.split_semicolon split.1 split.2, List.filterMap_cons_some isKind]
        exact .split others
      · rw [Lexeme.split_kept split, List.singleton_append]
        cases isKind : piece.kind? with
        | none =>
            rw [List.filterMap_cons_none isKind, List.filterMap_cons_none isKind]
            exact others
        | some kind =>
            rw [List.filterMap_cons_some isKind, List.filterMap_cons_some isKind]
            exact .keep kind others

end Pieces

/-- Splitting keys leaves a text with tokens, the same ones but for the brackets. -/
theorem tokenize_splitKeys {source : String} {tokens : List Token}
    (h : tokenize source = .ok tokens) (chosen : Nat → Bool) :
    ∃ others, tokenize (splitKeys chosen source) = .ok others ∧
      KeySplit (tokens.map Token.kind) (others.map Token.kind) := by
  rw [tokenize_eq] at h
  split at h
  · rename_i good
    cases h
    have cut : lexemes (splitKeys chosen source).toList =
        splitPieces chosen (lexemes source.toList) := by
      rw [splitKeys, String.toList_ofList]
      exact lexemes_splitPieces rfl good chosen
    refine ⟨(placed (splitPieces chosen (lexemes source.toList))).filterMap tokenOf, ?_, ?_⟩
    · rw [tokenize_eq, cut, if_pos (splitPieces_good good chosen)]
    · rw [map_kind_placed, map_kind_placed]
      exact keySplit_splitPieces _ chosen
  · cases h

end OpSelect
