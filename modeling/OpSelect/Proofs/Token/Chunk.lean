import OpSelect.Proofs.Token.Munch

/-!
Texts that are put together from words. Where a word is followed by a character that no word of
its kind goes on with, it is cut off there, whatever comes after. So the tokens of a text can be
found part by part.
-/

namespace OpSelect

open Computability

/-- The characters that words beginning like this may hold. Nothing is said of directives,
strings, comments and signs. -/
def Lead.goesOn : Lead → Char → Bool
  | .letter => isWordChar
  | .digit => fun c => isWordChar c || c == '.' || c == '+' || c == '-'
  | .dollar => fun c => isWordChar c || c == '$'
  | .layout => isLayout
  | .newline => (· == '\n')
  | .dot | .quote | .hash | .sign => fun _ => true

/-- All characters of all words are in the class. -/
def AllIn (P : Char → Bool) (L : Language Char) : Prop := ∀ word ∈ L, ∀ c ∈ word, P c = true

section AllIn

variable {P p : Char → Bool} {L M : Language Char}

theorem allIn_oneOf (h : ∀ c, p c = true → P c = true) : AllIn P (oneOf p) := by
  rintro word ⟨c, isIn, rfl⟩ d mem
  rw [List.mem_singleton.mp mem]
  exact h c isIn

theorem AllIn.mul (h : AllIn P L) (k : AllIn P M) : AllIn P (L * M) := by
  intro word mem c inside
  obtain ⟨first, isFirst, second, isSecond, rfl⟩ := Language.mem_mul.mp mem
  rcases List.mem_append.mp inside with inside | inside
  · exact h first isFirst c inside
  · exact k second isSecond c inside

theorem AllIn.add (h : AllIn P L) (k : AllIn P M) : AllIn P (L + M) := by
  intro word mem
  rcases (Language.mem_add _ _ _).mp mem with mem | mem
  · exact h word mem
  · exact k word mem

theorem allIn_one : AllIn P 1 := by
  intro word mem c inside
  rw [(Language.mem_one _).mp mem] at inside
  cases inside

theorem allIn_kstar (h : ∀ c, p c = true → P c = true) : AllIn P (oneOf p)∗ :=
  fun _ mem c inside => h c (mem_kstar_oneOf.mp mem c inside)

theorem allIn_someOf (h : ∀ c, p c = true → P c = true) : AllIn P (someOf p) :=
  (allIn_oneOf h).mul (allIn_kstar h)

end AllIn

theorem isWordChar_of_isDigit {c : Char} (h : c.isDigit = true) : isWordChar c = true := by
  simp [isWordChar, Char.isAlphanum, h]

theorem isWordChar_of_isWordStart {c : Char} (h : isWordStart c = true) : isWordChar c = true := by
  simp only [isWordStart, Bool.or_eq_true] at h
  simp only [isWordChar, Char.isAlphanum, Bool.or_eq_true]
  rcases h with h | h
  · exact .inl (.inl h)
  · exact .inr h

/-- There are few digits, so each is looked at. -/
theorem isWordChar_of_isHexDigit {c : Char} (h : isHexDigit c = true) : isWordChar c = true := by
  have small : ∀ n < 128, isHexDigit (Char.ofNat n) = true →
      isWordChar (Char.ofNat n) = true := by
    decide +kernel
  have same := small c.toNat (toNat_lt_of_isHexDigit h)
  rw [Char.ofNat_toNat] at same
  exact same h

namespace Pattern

variable {p q : Pattern} {text rest : List Char} {n : Nat}

theorem goesOn_of_mem (h : text ∈ p.language) : ∀ c ∈ text, p.lead.goesOn c = true := by
  have name : AllIn isWordChar nameLanguage :=
    (allIn_oneOf fun _ => isWordChar_of_isWordStart).mul (allIn_kstar fun _ h => h)
  suffices all : AllIn p.lead.goesOn p.language from all text h
  cases p with
  | mark m =>
      intro word mem
      rw [mem_mark.mp mem]
      apply List.all_eq_true.mp
      cases m <;> decide
  | newline | layout => exact allIn_someOf fun _ h => h
  | directive | string | comment => exact fun _ _ _ _ => rfl
  | word => exact name
  | register =>
      refine (allIn_oneOf ?_).mul ((allIn_oneOf ?_).mul (allIn_someOf ?_))
      · intro c h
        simp_all [lead, Lead.goesOn]
      · intro c h
        rcases (by simpa [isRegisterLetter, or_assoc] using h :
          c = 'I' ∨ c = 'N' ∨ c = 'S' ∨ c = 'P') with rfl | rfl | rfl | rfl <;> rfl
      · intro c h
        simp [lead, Lead.goesOn, isWordChar_of_isDigit h]
  | float =>
      have digits : AllIn (lead .float).goesOn (someOf Char.isDigit) := by
        refine allIn_someOf fun c h => ?_
        simp [lead, Lead.goesOn, isWordChar_of_isDigit h]
      refine digits.mul ((allIn_oneOf ?_).mul (digits.mul (allIn_one.add
        ((allIn_oneOf ?_).mul ((allIn_one.add (allIn_oneOf ?_)).mul digits)))))
      · intro c h
        simp_all [lead, Lead.goesOn]
      · intro c h
        rcases (by simpa using h : c = 'e' ∨ c = 'E') with rfl | rfl <;> rfl
      · intro c h
        rcases (by simpa using h : c = '+' ∨ c = '-') with rfl | rfl <;> rfl
  | integer =>
      have plain : ∀ c, isHexDigit c = true → (lead .integer).goesOn c = true := by
        intro c h
        simp [lead, Lead.goesOn, isWordChar_of_isHexDigit h]
      have exactly (d : Char) (h : isWordChar d = true) :
          AllIn (lead .integer).goesOn (oneOf (· == d)) := by
        refine allIn_oneOf fun c isIt => ?_
        simp [lead, Lead.goesOn, beq_iff_eq.mp isIt, h]
      refine (((exactly '0' rfl).mul ((exactly 'x' rfl).mul (allIn_someOf plain))).add
        ((exactly '0' rfl).mul ((exactly 'b' rfl).mul (allIn_someOf ?_)))).add (allIn_someOf ?_)
      · exact fun c h => plain c (isHexDigit_of_isBit h)
      · exact fun c h => plain c (isHexDigit_of_isDigit h)

/-- No word reaches past a character that words of its kind do not hold. -/
theorem longest_of_boundary (mem : text ∈ p.language)
    (bounded : ∀ c ∈ rest.head?, p.lead.goesOn c = false) :
    ∀ (q : Pattern) n, Starts q.language (text ++ rest) n → n ≤ text.length := by
  intro q n starts
  by_contra beyond
  cases text with
  | nil => exact absurd mem (nil_not_mem p)
  | cons c text =>
      cases rest with
      | nil =>
          have := starts.1
          simp at this beyond
          omega
      | cons d rest =>
          obtain ⟨more, rfl⟩ : ∃ more, n = (c :: text).length + (more + 1) :=
            ⟨n - (c :: text).length - 1, by omega⟩
          have word := starts.2
          rw [List.take_length_add_append, List.take_succ_cons] at word
          have same : q.lead = p.lead := (lead_of_mem word).symm.trans (lead_of_mem mem)
          have inside := goesOn_of_mem word d (by simp)
          rw [same, bounded d rfl] at inside
          cases inside

/-- A word that is bounded is taken, unless it is the name of a keyword. -/
theorem takes_of_boundary (mem : text ∈ p.language)
    (bounded : ∀ c ∈ rest.head?, p.lead.goesOn c = false)
    (keyword : p = .word → ∀ m : Mark, m.text.toList ≠ text) : p.Takes (text ++ rest) text :=
  ⟨List.prefix_append _ _, mem, longest_of_boundary mem bounded, keyword⟩

/-- Of the signs, these are no start of another one. -/
def loneSigns : List Mark := [.comma, .colon, .semicolon, .openBracket, .closeBracket, .minus]

theorem lone_sign : ∀ m ∈ loneSigns, m.text.toList.length = 1 ∧ (mark m).lead = .sign ∧
    ∀ m' ∈ Mark.all, m'.text.toList.head? = m.text.toList.head? →
      m'.text.toList = m.text.toList := by
  decide +kernel

theorem takes_sign {m : Mark} (h : m ∈ loneSigns) (rest : List Char) :
    (mark m).Takes (m.text.toList ++ rest) m.text.toList := by
  obtain ⟨single, isSign, alone⟩ := lone_sign m h
  refine ⟨List.prefix_append _ _, rfl, ?_, nofun⟩
  intro q n starts
  obtain ⟨c, one⟩ := List.length_eq_one_iff.mp single
  rw [one] at alone starts ⊢
  cases n with
  | zero => exact Nat.zero_le _
  | succ n =>
      have word : c :: rest.take n ∈ q.language := starts.2
      have isMark : [c] ∈ (mark m).language := one.symm
      have sameLead : q.lead = .sign := by
        rw [← isSign, ← lead_of_mem word, ← lead_of_mem isMark]
      cases q with
      | mark m' =>
          have texts := mem_mark.mp word
          have short := alone m' (mem_markAll m') (by rw [← texts]; rfl)
          have length := congrArg List.length (texts.trans short)
          have inside : n ≤ rest.length := by simpa using starts.1
          simp only [List.length_cons, List.length_take, Nat.min_eq_left inside,
            List.length_nil] at length ⊢
          omega
      | newline | directive | string | float | integer | register | word | layout | comment =>
          cases sameLead

theorem firstLexeme_of_takes {cs : List Char} (takes : p.Takes cs text) :
    firstLexeme cs = (text.length, p.classify text) := by
  have starts : Starts p.language cs text.length :=
    (starts_iff_isPrefix takes.isStart).mpr takes.mem
  unfold firstLexeme
  split
  · rename_i q n found
    obtain ⟨best, _, inside⟩ := takes_of_best found
    have shorter := takes.longest q _ ((starts_iff_isPrefix best.isStart).mpr best.mem)
    have longer := best.longest p _ starts
    have same : cs.take n = text := by
      refine List.IsPrefix.eq_of_length ?_ (Nat.le_antisymm shorter longer)
      exact List.prefix_of_prefix_length_le best.isStart takes.isStart shorter
    rw [same] at best ⊢
    rw [best.unique takes, ← same]
    simp [inside]
  · rename_i none
    have zero := no_word_of_best none p _ starts
    exact absurd (List.length_eq_zero_iff.mp zero ▸ takes.mem) (nil_not_mem p)

/-- What is taken is the first piece. -/
theorem lexemes_of_takes (takes : p.Takes (text ++ rest) text) :
    lexemes (text ++ rest) = ⟨text, p.classify text⟩ :: lexemes rest := by
  have first := firstLexeme_of_takes takes
  cases text with
  | nil => exact absurd takes.mem (nil_not_mem p)
  | cons c text =>
      rw [List.cons_append] at first ⊢
      rw [lexemes, first]
      simp

end Pattern

/-- The token that a piece stands for. -/
def Lexeme.kind? (piece : Lexeme) : Option TokenKind :=
  match piece.cls with
  | .token kind => some kind
  | .skipped | .bad => none

theorem map_kind_placed (pieces : List Lexeme) :
    ((placed pieces).filterMap tokenOf).map Token.kind = pieces.filterMap Lexeme.kind? := by
  have kind (entry : Lexeme × Span) : (tokenOf entry).map Token.kind = entry.1.kind? := by
    obtain ⟨⟨text, cls⟩, span⟩ := entry
    cases cls <;> rfl
  have kinds := List.filterMap_map (f := Prod.fst) (g := Lexeme.kind?) (l := placed pieces)
  rw [map_fst_placed] at kinds
  rw [List.map_filterMap, kinds]
  exact List.filterMap_congr fun entry _ => kind entry

/-- A text before another is cut into pieces of its own, with these tokens. -/
def Yields (text : List Char) (kinds : List TokenKind) (rest : List Char) : Prop :=
  ∃ pieces, lexemes (text ++ rest) = pieces ++ lexemes rest ∧
    (∀ piece ∈ pieces, piece.cls ≠ .bad) ∧ pieces.filterMap Lexeme.kind? = kinds

namespace Yields

variable {text more rest : List Char} {kinds others : List TokenKind}

theorem nil (rest : List Char) : Yields [] [] rest := ⟨[], rfl, by simp, rfl⟩

theorem append (h : Yields text kinds (more ++ rest)) (k : Yields more others rest) :
    Yields (text ++ more) (kinds ++ others) rest := by
  obtain ⟨first, cut, good, rfl⟩ := h
  obtain ⟨second, cut', good', rfl⟩ := k
  refine ⟨first ++ second, ?_, List.forall_mem_append.mpr ⟨good, good'⟩, List.filterMap_append⟩
  rw [List.append_assoc, cut, cut', List.append_assoc]

/-- The tokens of a whole text. -/
theorem tokenize {source : String} (h : Yields source.toList kinds []) :
    ∃ tokens, tokenize source = .ok tokens ∧ tokens.map Token.kind = kinds := by
  obtain ⟨pieces, cut, good, rfl⟩ := h
  have none : lexemes [] = [] := by rw [lexemes]
  rw [none, List.append_nil, List.append_nil] at cut
  refine ⟨(placed pieces).filterMap tokenOf, ?_, map_kind_placed pieces⟩
  rw [tokenize_eq, cut, if_pos good]

theorem token {p : Pattern} {kind : TokenKind} (takes : p.Takes (text ++ rest) text)
    (isKind : p.classify text = .token kind) : Yields text [kind] rest := by
  refine ⟨[⟨text, .token kind⟩], ?_, by simp, rfl⟩
  rw [Pattern.lexemes_of_takes takes, isKind, List.singleton_append]

theorem skipped {p : Pattern} (takes : p.Takes (text ++ rest) text)
    (isSkipped : p.classify text = .skipped) : Yields text [] rest := by
  refine ⟨[⟨text, .skipped⟩], ?_, by simp, rfl⟩
  rw [Pattern.lexemes_of_takes takes, isSkipped, List.singleton_append]

end Yields

section Words

variable {rest : List Char}

/-- Characters after which a word, a number or a register does not go on. -/
def delimiters : List Char := [' ', ',', ':', ';', '[', ']', '\n']

def Delimited (rest : List Char) : Prop := ∀ c ∈ rest.head?, c ∈ delimiters

theorem Delimited.goesOn {lead : Lead} (h : Delimited rest)
    (kind : lead = .letter ∨ lead = .digit ∨ lead = .dollar) :
    ∀ c ∈ rest.head?, lead.goesOn c = false := by
  intro c mem
  have each : (delimiters.all fun c => !lead.goesOn c) = true := by
    rcases kind with rfl | rfl | rfl <;> decide
  simpa using List.all_eq_true.mp each c (h c mem)

theorem yields_sign {m : Mark} (h : m ∈ Pattern.loneSigns) (rest : List Char) :
    Yields m.text.toList [.mark m] rest :=
  .token (Pattern.takes_sign h rest) rfl

theorem yields_word {name : String} (isWord : name.toList ∈ Pattern.language .word)
    (ordinary : ∀ m : Mark, name ≠ m.text) (delimited : Delimited rest) :
    Yields name.toList [.word name] rest := by
  refine .token (Pattern.takes_of_boundary isWord (delimited.goesOn (.inl rfl)) ?_) ?_
  · intro _ m same
    exact ordinary m (String.toList_inj.mp same).symm
  · rw [Pattern.classify, String.ofList_toList]

theorem yields_keyword {m : Mark} (isKeyword : Pattern.lead (.mark m) = .letter)
    (delimited : Delimited rest) : Yields m.text.toList [.mark m] rest := by
  have word : m.text.toList ∈ Pattern.language (.mark m) := rfl
  exact .token (Pattern.takes_of_boundary word (delimited.goesOn (.inl isKeyword)) nofun) rfl

theorem yields_register {name : String} (isRegister : name.toList ∈ Pattern.language .register)
    (delimited : Delimited rest) : Yields name.toList [.register name] rest := by
  refine .token (Pattern.takes_of_boundary isRegister (delimited.goesOn (.inr (.inr rfl))) nofun)
    ?_
  rw [Pattern.classify, String.ofList_toList]

theorem yields_float {text : String} (isFloat : text.toList ∈ Pattern.language .float)
    (delimited : Delimited rest) : Yields text.toList [.float text] rest := by
  refine .token (Pattern.takes_of_boundary isFloat (delimited.goesOn (.inr (.inl rfl))) nofun) ?_
  rw [Pattern.classify, String.ofList_toList]

theorem mem_someOf {p : Char → Bool} {text : List Char} (nonempty : text ≠ [])
    (all : ∀ c ∈ text, p c = true) : text ∈ someOf p := by
  rw [mem_iff_starts, starts_someOf]
  exact ⟨List.length_pos_iff.mpr nonempty, length_le_run_iff.mpr all⟩

theorem numeralValue_toDigits (n : Nat) : numeralValue 10 (Nat.toDigits 10 n) = n := by
  have digits : ∀ c ∈ Nat.toDigits 10 n, c.isDigit = true := fun c mem =>
    Nat.isDigit_of_mem_toDigits (by decide) (by decide) mem
  rw [numeralValue, List.foldl_ext (g := fun value c => 10 * value + (c.toNat - '0'.toNat))]
  · exact Nat.ofDigitChars_ten_toDigits
  · intro value c mem
    rw [digitValue, if_pos (digits c mem), Nat.mul_comm]

/-- A number in decimal digits. -/
theorem yields_integer {n : Nat} (fits : n ≤ maxInteger) (delimited : Delimited rest) :
    Yields (toString n).toList [.integer n] rest := by
  have text : (toString n).toList = Nat.toDigits 10 n := Nat.toList_repr
  have digits : ∀ c ∈ Nat.toDigits 10 n, c.isDigit = true := fun c mem =>
    Nat.isDigit_of_mem_toDigits (by decide) (by decide) mem
  have value : integerValue (Nat.toDigits 10 n) = n := by
    rw [integerValue_decimal digits, ← numeralValue_eq_positional fun c mem =>
      isHexDigit_of_isDigit (digits c mem), numeralValue_toDigits]
  have isInteger : Nat.toDigits 10 n ∈ Pattern.language .integer :=
    (Language.mem_add _ _ _).mpr (.inr (mem_someOf Nat.toDigits_ne_nil digits))
  rw [text]
  refine .token (Pattern.takes_of_boundary isInteger (delimited.goesOn (.inr (.inl rfl))) nofun) ?_
  rw [Pattern.classify]
  simp [value, fits]

/-- Blanks before something else. -/
theorem yields_blanks {n : Nat} (some : n ≠ 0) (ended : ∀ c ∈ rest.head?, isLayout c = false) :
    Yields (List.replicate n ' ') [] rest := by
  have isLayout : List.replicate n ' ' ∈ Pattern.language .layout := by
    refine mem_someOf (by simpa using some) fun c mem => ?_
    rw [List.eq_of_mem_replicate mem]
    rfl
  exact .skipped (Pattern.takes_of_boundary isLayout ended nofun) rfl

theorem yields_newline (ended : ∀ c ∈ rest.head?, c ≠ '\n') : Yields ['\n'] [.newline] rest := by
  have isNewline : ['\n'] ∈ Pattern.language .newline := mem_someOf (by simp) (by simp)
  refine .token (Pattern.takes_of_boundary isNewline (fun c mem => ?_) nofun) rfl
  simpa [Pattern.lead, Lead.goesOn] using ended c mem

end Words

end OpSelect
