import Mathlib.Data.Nat.Digits.Defs
import OpSelect.Proofs.Token.Language
import OpSelect.Token.Lexeme

/-!
What the text of a lexeme stands for, said without the functions that compute it: the value of
a numeral by the places of its digits, the value of a string part by part.
-/

namespace OpSelect

open Computability

/-- A digit's place among the digits. Capital letters stand for the same digits as small ones. -/
def digitRank (c : Char) : Nat := "0123456789abcdef".toList.idxOf c.toLower

/-- The number that digits denote in a base, the last digit being worth the least. -/
def positional (base : Nat) (digits : List Char) : Nat :=
  Nat.ofDigits base (digits.reverse.map digitRank)

/-- The numbers that integer literals denote. -/
inductive Numeral : List Char → Nat → Prop where
  | hexadecimal (digits : List Char) (valid : ∀ d ∈ digits, isHexDigit d = true) :
      Numeral ('0' :: 'x' :: digits) (positional 16 digits)
  | binary (digits : List Char) (valid : ∀ d ∈ digits, isBit d = true) :
      Numeral ('0' :: 'b' :: digits) (positional 2 digits)
  | decimal (digits : List Char) (valid : ∀ d ∈ digits, d.isDigit = true) :
      Numeral digits (positional 10 digits)

/-- What a backslash makes of the character after it. -/
def escapedMeaning : Char → Char
  | 'n' => '\n'
  | 'r' => '\r'
  | 't' => '\t'
  | '0' => '\x00'
  | c => c

/-- The value of a string's inside. -/
inductive StringValue : List Char → List Char → Prop where
  | nil : StringValue [] []
  | plain (c : Char) (unescaped : c ≠ '\\') {inside value : List Char}
      (rest : StringValue inside value) : StringValue (c :: inside) (c :: value)
  | escape (c : Char) {inside value : List Char} (rest : StringValue inside value) :
      StringValue ('\\' :: c :: inside) (escapedMeaning c :: value)

/-- What a text stands for as a word of a pattern. -/
inductive Pattern.Denotes : Pattern → List Char → LexemeClass → Prop where
  | mark (m : Mark) (text : List Char) : Denotes (.mark m) text (.token (.mark m))
  | newline (text : List Char) : Denotes .newline text (.token .newline)
  | directive (name : List Char) :
      Denotes .directive ('.' :: name) (.token (.directive (String.ofList name)))
  | string (inside value : List Char) (isValue : StringValue inside value) :
      Denotes .string ('"' :: (inside ++ ['"'])) (.token (.string (String.ofList value)))
  | float (text : List Char) : Denotes .float text (.token (.float (String.ofList text)))
  | integer (text : List Char) (value : Nat) (numeral : Numeral text value)
      (fits : value ≤ maxInteger) : Denotes .integer text (.token (.integer value))
  | overflow (text : List Char) (value : Nat) (numeral : Numeral text value)
      (tooLarge : maxInteger < value) : Denotes .integer text .bad
  | register (text : List Char) :
      Denotes .register text (.token (.register (String.ofList text)))
  | word (text : List Char) : Denotes .word text (.token (.word (String.ofList text)))
  | layout (text : List Char) : Denotes .layout text .skipped
  | comment (text : List Char) : Denotes .comment text .skipped

theorem isHexDigit_of_isDigit {c : Char} (h : c.isDigit = true) : isHexDigit c = true := by
  simp [isHexDigit, h]

theorem isHexDigit_of_isBit {c : Char} (h : isBit c = true) : isHexDigit c = true := by
  rcases (by simpa [isBit] using h : c = '0' ∨ c = '1') with rfl | rfl <;> rfl

theorem toNat_lt_of_isHexDigit {c : Char} (h : isHexDigit c = true) : c.toNat < 128 := by
  simp only [isHexDigit, Char.isDigit, Bool.or_eq_true, Bool.and_eq_true, decide_eq_true_eq,
    Char.le_def, UInt32.le_iff_toNat_le] at h
  rcases h with (⟨_, high⟩ | ⟨_, high⟩) | ⟨_, high⟩
  all_goals exact Nat.lt_of_le_of_lt high (by decide)

/-- There are few digits, so each is looked at. -/
theorem digitValue_eq_digitRank {c : Char} (h : isHexDigit c = true) :
    digitValue c = digitRank c := by
  have small : ∀ n < 128, isHexDigit (Char.ofNat n) = true →
      digitValue (Char.ofNat n) = digitRank (Char.ofNat n) := by
    decide +kernel
  have same := small c.toNat (toNat_lt_of_isHexDigit h)
  rw [Char.ofNat_toNat] at same
  exact same h

theorem numeralValue_eq_positional {base : Nat} {digits : List Char}
    (valid : ∀ d ∈ digits, isHexDigit d = true) :
    numeralValue base digits = positional base digits := by
  induction digits using List.reverseRecOn with
  | nil => rfl
  | append_singleton digits d ih =>
      have before := ih fun d mem => valid d (List.mem_append_left _ mem)
      have last := digitValue_eq_digitRank (valid d (by simp))
      rw [positional] at before
      rw [numeralValue, List.foldl_append, ← numeralValue, before, positional,
        List.reverse_append]
      simp only [List.foldl_cons, List.foldl_nil, List.reverse_singleton, List.singleton_append,
        List.map_cons, Nat.ofDigits_cons, last]
      rw [Nat.mul_comm, Nat.add_comm]

theorem length_le_run_iff {p : Char → Bool} {cs : List Char} :
    cs.length ≤ runLength p cs ↔ ∀ c ∈ cs, p c = true := by
  rw [all_take_iff, List.take_length]
  simp

theorem mem_iff_starts {L : Language Char} {text : List Char} :
    text ∈ L ↔ Starts L text text.length :=
  (starts_iff_isPrefix (List.prefix_refl text)).symm

theorem integerValue_decimal {text : List Char} (valid : ∀ d ∈ text, d.isDigit = true) :
    integerValue text = positional 10 text := by
  have plain : integerValue text = numeralValue 10 text := by
    unfold integerValue
    split
    · exact absurd (valid 'x' (by simp)) (by decide)
    · exact absurd (valid 'b' (by simp)) (by decide)
    · rfl
  rw [plain, numeralValue_eq_positional fun d mem => isHexDigit_of_isDigit (valid d mem)]

theorem Numeral.eq_integerValue {text : List Char} {value : Nat} (h : Numeral text value) :
    value = integerValue text := by
  cases h with
  | hexadecimal digits valid => rw [integerValue, numeralValue_eq_positional valid]
  | binary digits valid =>
      rw [integerValue,
        numeralValue_eq_positional fun d mem => isHexDigit_of_isBit (valid d mem)]
  | decimal digits valid => rw [integerValue_decimal valid]

/-- The forms of an integer literal. -/
theorem numeral_of_mem {text : List Char} (h : text ∈ Pattern.language .integer) :
    Numeral text (integerValue text) := by
  rcases Pattern.starts_integer.mp (mem_iff_starts.mp h) with
    ⟨rest, m, rfl, length, _, run⟩ | ⟨rest, m, rfl, length, _, run⟩ | ⟨_, run⟩
  · obtain rfl : rest.length = m := by simpa using length
    have valid := length_le_run_iff.mp run
    rw [integerValue, numeralValue_eq_positional valid]
    exact .hexadecimal rest valid
  · obtain rfl : rest.length = m := by simpa using length
    have valid := length_le_run_iff.mp run
    rw [integerValue, numeralValue_eq_positional fun d mem => isHexDigit_of_isBit (valid d mem)]
    exact .binary rest valid
  · have valid := length_le_run_iff.mp run
    rw [integerValue_decimal valid]
    exact .decimal text valid

theorem unescape_plain {c : Char} (h : c ≠ '\\') (cs : List Char) :
    unescape (c :: cs) = c :: unescape cs := by
  simp [unescape, h]

theorem unescape_escape (c : Char) (cs : List Char) :
    unescape ('\\' :: c :: cs) = escapedMeaning c :: unescape cs := by
  rw [unescape]
  fun_cases escapedMeaning c with
  | case1 | case2 | case3 | case4 => rfl
  | case5 _ line carriage tab zero =>
      rw [if_neg line, if_neg carriage, if_neg tab, if_neg zero]

theorem stringValue_unescape {inside : List Char} (h : inside ∈ Pattern.stringPart∗) :
    StringValue inside (unescape inside) := by
  obtain ⟨parts, rfl, each⟩ := h
  induction parts with
  | nil => exact .nil
  | cons part parts ih =>
      obtain ⟨isPart, others⟩ := List.forall_mem_cons.mp each
      rw [List.flatten_cons]
      rcases (Language.mem_add _ _ _).mp isPart with ⟨c, plain, rfl⟩ | escaped
      · have unescaped : c ≠ '\\' := by
          simpa using (Bool.and_eq_true_iff.mp plain).2
        rw [List.singleton_append, unescape_plain unescaped]
        exact .plain c unescaped (ih others)
      · obtain ⟨_, ⟨c, slash, rfl⟩, _, ⟨d, line, rfl⟩, rfl⟩ := Language.mem_mul.mp escaped
        obtain rfl := beq_iff_eq.mp slash
        rw [List.singleton_append, List.cons_append, List.singleton_append, unescape_escape]
        exact .escape d (ih others)

/-- The class that a word is given is what it stands for. -/
theorem Pattern.denotes_classify {p : Pattern} {text : List Char} (h : text ∈ p.language) :
    p.Denotes text (p.classify text) := by
  cases p with
  | mark m => exact .mark m text
  | newline => exact .newline text
  | float => exact .float text
  | register => exact .register text
  | word => exact .word text
  | layout => exact .layout text
  | comment => exact .comment text
  | directive =>
      obtain ⟨_, ⟨c, isDot, rfl⟩, name, _, rfl⟩ := Language.mem_mul.mp h
      obtain rfl := beq_iff_eq.mp isDot
      exact .directive name
  | string =>
      obtain ⟨_, ⟨c, isQuote, rfl⟩, _, closed, rfl⟩ := Language.mem_mul.mp h
      obtain ⟨inside, isInside, _, ⟨d, isLast, rfl⟩, rfl⟩ := Language.mem_mul.mp closed
      obtain rfl := beq_iff_eq.mp isQuote
      obtain rfl := beq_iff_eq.mp isLast
      have body : (('"' :: (inside ++ ['"'])).drop 1).dropLast = inside := by simp
      rw [List.singleton_append, classify, body]
      exact .string inside _ (stringValue_unescape isInside)
  | integer =>
      have numeral := numeral_of_mem h
      rw [classify]
      split
      · rename_i fits
        exact .integer text _ numeral fits
      · rename_i large
        exact .overflow text _ numeral (Nat.lt_of_not_le large)

end OpSelect
