import OpSelect.Proofs.Token.Chunk
import OpSelect.Proofs.Token.Row
import OpSelect.Symbol.Basic

/-!
Strings between quotes. A string is written with its characters escaped, and what is written is
one string token, whatever the string holds. The escapes of both sides agree on the printable
characters, so these are read back as they were. Any other character is written by its code,
which reading does not know: it drops the backslash and keeps the rest of the escape. No such
character can come out of a token again, so a string is read back if and only if it has none.
-/

namespace OpSelect

open Computability

section Characters

/-- Characters that are written back as they were, given that some are escaped. -/
def isPrintable (c : Char) : Bool :=
  c == '\t' || c == '\r' || c == '\n' || (' ' ≤ c && c ≤ '~')

theorem isPrintable_iff {c : Char} :
    isPrintable c = true ↔
      c = '\t' ∨ c = '\r' ∨ c = '\n' ∨ 0x20 ≤ c.toNat ∧ c.toNat ≤ 0x7e := by
  simp only [isPrintable, Bool.or_eq_true, Bool.and_eq_true, beq_iff_eq, decide_eq_true_eq,
    or_assoc]
  rfl

/-- A printable character stands for itself, or an escape stands for it. -/
theorem escapeChar_cases {c : Char} (h : isPrintable c = true) :
    (Text.escapeChar c = [c] ∧ c ≠ '"' ∧ c ≠ '\\') ∨
      ∃ d, Text.escapeChar c = ['\\', d] ∧ d ≠ '\n' ∧ escapedMeaning d = c := by
  unfold Text.escapeChar
  split
  · rename_i tab
    exact .inr ⟨'t', rfl, by decide, tab.symm⟩
  split
  · rename_i carriage
    exact .inr ⟨'r', rfl, by decide, carriage.symm⟩
  split
  · rename_i line
    exact .inr ⟨'n', rfl, by decide, line.symm⟩
  split
  · rename_i escaped
    refine .inr ⟨c, rfl, ?_⟩
    rcases escaped with rfl | rfl | rfl <;> exact ⟨by decide, rfl⟩
  · rename_i tab carriage line unescaped
    rw [if_pos (by simpa [isPrintable, tab, carriage, line] using h)]
    simp only [not_or] at unescaped
    exact .inl ⟨rfl, unescaped.2⟩

/-- A character's code between braces, as it ends an escape. -/
def codeText (c : Char) : List Char := '\x7b' :: (Text.hexCode c ++ ['\x7d'])

theorem escapeChar_of_unprintable {c : Char} (h : isPrintable c = false) :
    Text.escapeChar c = '\\' :: 'u' :: codeText c := by
  simp only [isPrintable, Bool.or_eq_false_iff, beq_eq_false_iff_ne] at h
  obtain ⟨⟨⟨tab, carriage⟩, line⟩, outside⟩ := h
  have unescaped : ¬ (c = '\'' ∨ c = '"' ∨ c = '\\') := by
    rintro (rfl | rfl | rfl) <;> cases outside
  have hidden : ¬ (' ' ≤ c ∧ c ≤ '~') := by simpa using outside
  rw [Text.escapeChar, if_neg tab, if_neg carriage, if_neg line, if_neg unescaped, if_neg hidden]
  rfl

theorem exists_digit_of_mem_toDigits {base n : Nat} (proper : 1 < base) :
    ∀ c ∈ base.toDigits n, ∃ d < base, c = d.digitChar := by
  induction n using Nat.strongRecOn with
  | _ n ih =>
      rw [Nat.toDigits_eq_if proper]
      split
      · rename_i single
        exact List.forall_mem_singleton.mpr ⟨n, single, rfl⟩
      · refine List.forall_mem_append.mpr ⟨ih _ (Nat.div_lt_self (by omega) proper), ?_⟩
        exact List.forall_mem_singleton.mpr ⟨n % base, Nat.mod_lt n (by omega), rfl⟩

/-- The code is spelled in characters that a string may hold unescaped. -/
theorem plain_of_mem_codeText {c d : Char} (mem : d ∈ codeText c) :
    isPrintable d = true ∧ d ≠ '"' ∧ d ≠ '\\' := by
  have digits : ∀ n < 16, isPrintable n.digitChar = true ∧ n.digitChar ≠ '"' ∧
      n.digitChar ≠ '\\' := by decide
  simp only [codeText, List.mem_cons, List.mem_append, List.not_mem_nil, or_false] at mem
  rcases mem with rfl | mem | rfl
  · decide
  · obtain ⟨n, small, rfl⟩ := exists_digit_of_mem_toDigits (by decide) d mem
    exact digits n small
  · decide

/-- What is read where a character was written. -/
def readBack (c : Char) : List Char := if isPrintable c then [c] else 'u' :: codeText c

theorem isPrintable_of_mem_readBack {c d : Char} (mem : d ∈ readBack c) :
    isPrintable d = true := by
  unfold readBack at mem
  split at mem
  · rename_i printable
    rwa [List.mem_singleton.mp mem]
  · rcases List.mem_cons.mp mem with rfl | mem
    · decide
    · exact (plain_of_mem_codeText mem).1

/-- Only printable characters come back, so a string of others is not read as it was. -/
theorem flatMap_readBack_eq_iff {value : List Char} :
    value.flatMap readBack = value ↔ ∀ c ∈ value, isPrintable c = true := by
  constructor
  · intro same c mem
    rw [← same] at mem
    obtain ⟨_, _, inside⟩ := List.mem_flatMap.mp mem
    exact isPrintable_of_mem_readBack inside
  · intro printable
    induction value with
    | nil => rfl
    | cons c value ih =>
        obtain ⟨isFirst, others⟩ := List.forall_mem_cons.mp printable
        rw [List.flatMap_cons, readBack, if_pos isFirst, ih others]
        rfl

end Characters

section Inside

theorem mem_stringPart_plain {c : Char} (quote : c ≠ '"') (slash : c ≠ '\\') :
    [c] ∈ Pattern.stringPart :=
  (Language.mem_add _ _ _).mpr (.inl ⟨c, by simp [quote, slash], rfl⟩)

theorem mem_stringPart_escape {c : Char} (line : c ≠ '\n') : ['\\', c] ∈ Pattern.stringPart :=
  (Language.mem_add _ _ _).mpr
    (.inr (Language.append_mem_mul (a := ['\\']) (b := [c]) ⟨'\\', rfl, rfl⟩
      ⟨c, by simp [line], rfl⟩))

theorem append_mem_kstar {L : Language Char} {front back : List Char} (h : front ∈ L∗)
    (k : back ∈ L∗) : front ++ back ∈ L∗ := by
  rw [← kstar_mul_kstar]
  exact Language.append_mem_mul h k

theorem mem_kstar_of_mem {L : Language Char} {word : List Char} (h : word ∈ L) : word ∈ L∗ :=
  (show L ≤ L∗ from le_kstar) h

theorem flatMap_mem_kstar {L : Language Char} {f : Char → List Char} {value : List Char}
    (each : ∀ c ∈ value, f c ∈ L∗) : value.flatMap f ∈ L∗ := by
  induction value with
  | nil => exact Language.nil_mem_kstar L
  | cons c value ih =>
      obtain ⟨isFirst, others⟩ := List.forall_mem_cons.mp each
      exact append_mem_kstar isFirst (ih others)

/-- Every character is escaped into parts of a string. -/
theorem escapeChar_mem_inside (c : Char) : Text.escapeChar c ∈ Pattern.stringPart∗ := by
  cases printable : isPrintable c with
  | true =>
      rcases escapeChar_cases printable with ⟨same, quote, slash⟩ | ⟨d, escape, line, _⟩
      · rw [same]
        exact mem_kstar_of_mem (mem_stringPart_plain quote slash)
      · rw [escape]
        exact mem_kstar_of_mem (mem_stringPart_escape line)
  | false =>
      have code : ∀ d ∈ codeText c, [d] ∈ Pattern.stringPart∗ := by
        intro d mem
        obtain ⟨_, quote, slash⟩ := plain_of_mem_codeText mem
        exact mem_kstar_of_mem (mem_stringPart_plain quote slash)
      have letter : ['\\', 'u'] ∈ Pattern.stringPart∗ :=
        mem_kstar_of_mem (mem_stringPart_escape (by decide))
      have rest := flatMap_mem_kstar code
      rw [List.flatMap_singleton'] at rest
      rw [escapeChar_of_unprintable printable]
      exact append_mem_kstar letter rest

theorem escaped_mem_inside (value : List Char) :
    value.flatMap Text.escapeChar ∈ Pattern.stringPart∗ :=
  flatMap_mem_kstar fun c _ => escapeChar_mem_inside c

theorem unescape_plain_append {front : List Char} (plain : ∀ c ∈ front, c ≠ '\\')
    (rest : List Char) : unescape (front ++ rest) = front ++ unescape rest := by
  induction front with
  | nil => rfl
  | cons c front ih =>
      obtain ⟨isFirst, others⟩ := List.forall_mem_cons.mp plain
      rw [List.cons_append, unescape_plain isFirst, ih others, List.cons_append]

/-- An escaped character and what is read there, before any other text. -/
theorem unescape_escapeChar_append (c : Char) (rest : List Char) :
    unescape (Text.escapeChar c ++ rest) = readBack c ++ unescape rest := by
  cases printable : isPrintable c with
  | true =>
      rw [readBack, if_pos printable, List.singleton_append]
      rcases escapeChar_cases printable with ⟨same, _, slash⟩ | ⟨d, escape, _, meaning⟩
      · rw [same, List.singleton_append, unescape_plain slash]
      · rw [escape, List.cons_append, List.singleton_append, unescape_escape, meaning]
  | false =>
      have plain : ∀ d ∈ codeText c, d ≠ '\\' := fun d mem => (plain_of_mem_codeText mem).2.2
      have letter : escapedMeaning 'u' = 'u' := rfl
      rw [escapeChar_of_unprintable printable, readBack, if_neg (by simp [printable]),
        List.cons_append, List.cons_append, unescape_escape, letter, unescape_plain_append plain,
        List.cons_append]

theorem unescape_escaped (value : List Char) :
    unescape (value.flatMap Text.escapeChar) = value.flatMap readBack := by
  induction value with
  | nil => rfl
  | cons c value ih =>
      rw [List.flatMap_cons, unescape_escapeChar_append, ih, List.flatMap_cons]

end Inside

section Quoted

/-- The text of a string between quotes. -/
def quoted (value : String) : List Char := '"' :: ((Text.escape value).toList ++ ['"'])

/-- A string ends at its closing quote, whatever comes after it. -/
theorem closingQuote_escaped (value rest : List Char) :
    Pattern.closingQuote (value.flatMap Text.escapeChar ++ '"' :: rest) =
      some ((value.flatMap Text.escapeChar).length + 1) := by
  have closed : value.flatMap Text.escapeChar ++ ['"'] ∈ Pattern.stringEnd :=
    Language.append_mem_mul (escaped_mem_inside value) ⟨'"', rfl, rfl⟩
  have inFront : value.flatMap Text.escapeChar ++ ['"'] <+:
      value.flatMap Text.escapeChar ++ '"' :: rest := ⟨rest, by simp⟩
  have ends := Pattern.starts_stringEnd.mp ((starts_iff_isPrefix inFront).mpr closed)
  rwa [List.length_append, List.length_singleton] at ends

theorem takes_quoted (value : String) (rest : List Char) :
    Pattern.Takes .string (quoted value ++ rest) (quoted value) := by
  have text : quoted value ++ rest =
      '"' :: (value.toList.flatMap Text.escapeChar ++ '"' :: rest) := by
    simp [quoted, Text.escape]
  have longest : Pattern.longest .string (quoted value ++ rest) = (quoted value).length := by
    rw [text, Pattern.longest, closingQuote_escaped]
    simp only [quoted, Text.escape, String.toList_ofList, List.length_cons, List.length_append,
      List.length_nil]
    omega
  have isLongest := Pattern.isLongest .string (quoted value ++ rest)
  rw [longest] at isLongest
  have isString : quoted value ∈ Pattern.language .string :=
    (starts_iff_isPrefix (List.prefix_append _ _)).mp (isLongest.found (by simp [quoted]))
  refine ⟨List.prefix_append _ _, isString, ?_, (absurd · (by decide))⟩
  intro q n starts
  cases n with
  | zero => exact Nat.zero_le _
  | succ n =>
      have word : '"' :: (value.toList.flatMap Text.escapeChar ++ '"' :: rest).take n ∈
          q.language := by
        have start := starts.2
        rwa [text, List.take_succ_cons] at start
      have same : Lead.quote = q.lead := Pattern.lead_of_mem word
      cases q with
      | string => exact isLongest.longest _ starts
      | mark m => cases m <;> cases same
      | newline | directive | float | integer | register | word | layout | comment => cases same

theorem classify_quoted (value : String) :
    Pattern.classify .string (quoted value) =
      .token (.string (String.ofList (value.toList.flatMap readBack))) := by
  have body : ((quoted value).drop 1).dropLast = (Text.escape value).toList := by simp [quoted]
  rw [Pattern.classify, body, Text.escape, String.toList_ofList, unescape_escaped]

theorem yields_string {value : String} (printable : ∀ c ∈ value.toList, isPrintable c = true)
    (rest : List Char) : Yields (quoted value) [.string value] rest := by
  refine .token (takes_quoted value rest) ?_
  rw [classify_quoted, flatMap_readBack_eq_iff.mpr printable, String.ofList_toList]

/-- A text that a pattern takes as a whole is one token. -/
theorem tokenize_of_takes {p : Pattern} {source : String} {kind : TokenKind}
    (takes : p.Takes source.toList source.toList)
    (isKind : p.classify source.toList = .token kind) :
    tokenize source = .ok [⟨kind, ⟨0, source.utf8ByteSize⟩⟩] := by
  have whole : p.Takes (source.toList ++ []) source.toList := by rwa [List.append_nil]
  have cut := Pattern.lexemes_of_takes whole
  have none : lexemes [] = [] := by rw [lexemes]
  have size : byteSize source.toList = source.utf8ByteSize := by
    rw [← utf8ByteSize_ofList, String.ofList_toList]
  rw [List.append_nil, isKind, none] at cut
  simp only [tokenize, cut, tokensFrom, size, Nat.zero_add]

theorem toList_displayText_string (value : String) :
    (Symbol.displayText ⟨value, .string, .constant⟩).toList = quoted value := by
  simp [Symbol.displayText, quoted]

/-- A string constant as it is shown is one string token. Its value is the constant's if and only
if the constant has no characters but tabs, line ends and those from the blank to the tilde. -/
theorem string_constant_read_back (value : String) :
    ∃ read : String,
      tokenize (Symbol.displayText ⟨value, .string, .constant⟩) =
        .ok [⟨.string read,
          ⟨0, (Symbol.displayText ⟨value, .string, .constant⟩).utf8ByteSize⟩⟩] ∧
      (read = value ↔ ∀ c ∈ value.toList,
        c = '\t' ∨ c = '\r' ∨ c = '\n' ∨ 0x20 ≤ c.toNat ∧ c.toNat ≤ 0x7e) := by
  have shown := toList_displayText_string value
  refine ⟨String.ofList (value.toList.flatMap readBack), ?_, ?_⟩
  · have takes := takes_quoted value []
    rw [List.append_nil] at takes
    refine tokenize_of_takes (p := .string) (shown ▸ takes) ?_
    rw [shown, classify_quoted]
  · rw [← String.toList_inj, String.toList_ofList, flatMap_readBack_eq_iff]
    exact forall₂_congr fun c _ => isPrintable_iff

/-- A character beyond ASCII is read as its code, without the backslash. -/
example : tokenize (Symbol.displayText ⟨"é\n'", .string, .constant⟩) =
    .ok [⟨.string "u\x7be9\x7d\n'", ⟨0, 12⟩⟩] := by decide +kernel

end Quoted
end OpSelect
