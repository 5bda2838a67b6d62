import Mathlib.Computability.Language
import OpSelect.Token.Pattern

/-!
The patterns as languages, built from character classes by union, product and star as a regular
expression is. `Starts` says that a language has a word at the start of a text. The lemmas about
it turn membership into arithmetic on the lengths of runs, and the main result is that
`Pattern.longest` is the greatest length of such a word.
-/

namespace OpSelect

open Computability

/-- The words of one character of a class. -/
def oneOf (p : Char → Bool) : Language Char := {word | ∃ c, p c = true ∧ word = [c]}

/-- One or more characters of a class. -/
def someOf (p : Char → Bool) : Language Char := oneOf p * (oneOf p)∗

namespace Pattern

def nameLanguage : Language Char := oneOf isWordStart * (oneOf isWordChar)∗

/-- A character of a string, or an escape: a backslash before anything but a newline. -/
def stringPart : Language Char :=
  oneOf (fun c => c != '"' && c != '\\') + oneOf (· == '\\') * oneOf (· != '\n')

def exponentLanguage : Language Char :=
  oneOf (fun c => c == 'e' || c == 'E') *
    ((1 + oneOf fun c => c == '+' || c == '-') * someOf Char.isDigit)

/-- The words that a pattern matches. -/
def language : Pattern → Language Char
  | mark m => {m.text.toList}
  | newline => someOf (· == '\n')
  | directive => oneOf (· == '.') * nameLanguage
  | string => oneOf (· == '"') * (stringPart∗ * oneOf (· == '"'))
  | float =>
      someOf Char.isDigit *
        (oneOf (· == '.') * (someOf Char.isDigit * (1 + exponentLanguage)))
  | integer =>
      oneOf (· == '0') * (oneOf (· == 'x') * someOf isHexDigit) +
        oneOf (· == '0') * (oneOf (· == 'b') * someOf isBit) + someOf Char.isDigit
  | register => oneOf (· == '$') * (oneOf isRegisterLetter * someOf Char.isDigit)
  | word => nameLanguage
  | layout => someOf isLayout
  | comment => oneOf (· == '#') * (oneOf fun c => c != '\r' && c != '\n')∗

end Pattern

/-- The first `n` characters of the text are a word of the language. -/
def Starts (L : Language Char) (cs : List Char) (n : Nat) : Prop := n ≤ cs.length ∧ cs.take n ∈ L

section Starts

variable {L M : Language Char} {p : Char → Bool} {cs : List Char} {n : Nat}

theorem starts_iff_isPrefix {word : List Char} (h : word <+: cs) :
    Starts L cs word.length ↔ word ∈ L := by
  obtain ⟨rest, rfl⟩ := h
  simp [Starts]

@[simp]
theorem starts_one : Starts 1 cs n ↔ n = 0 := by
  simp only [Starts, Language.mem_one, List.take_eq_nil_iff]
  constructor
  · rintro ⟨inside, rfl | rfl⟩
    · rfl
    · simpa using inside
  · rintro rfl
    simp

theorem starts_add : Starts (L + M) cs n ↔ Starts L cs n ∨ Starts M cs n := by
  rw [Starts, Starts, Starts, Language.mem_add, and_or_left]

theorem starts_mul :
    Starts (L * M) cs n ↔ ∃ a b, n = a + b ∧ Starts L cs a ∧ Starts M (cs.drop a) b := by
  constructor
  · rintro ⟨inside, mem⟩
    obtain ⟨u, isFirst, v, isSecond, whole⟩ := Language.mem_mul.mp mem
    have length := congrArg List.length whole
    rw [List.length_append, List.length_take, Nat.min_eq_left inside] at length
    have pre : u ++ v <+: cs := whole ▸ List.take_prefix n cs
    obtain ⟨rest, rfl⟩ := pre
    refine ⟨u.length, v.length, length.symm, ?_, ?_⟩
    · exact (starts_iff_isPrefix ⟨v ++ rest, by simp⟩).mpr isFirst
    · rw [List.append_assoc, List.drop_left]
      exact (starts_iff_isPrefix ⟨rest, rfl⟩).mpr isSecond
  · rintro ⟨a, b, rfl, ⟨first, isFirst⟩, second, isSecond⟩
    rw [List.length_drop] at second
    refine ⟨by omega, ?_⟩
    rw [List.take_add]
    exact Language.append_mem_mul isFirst isSecond

/-- A product that begins with one character of a class. -/
theorem starts_oneOf_mul :
    Starts (oneOf p * L) cs n ↔ ∃ c rest m, cs = c :: rest ∧ p c = true ∧ n = m + 1 ∧
      Starts L rest m := by
  have one : ∀ a, Starts (oneOf p) cs a ↔ a = 1 ∧ ∃ c rest, cs = c :: rest ∧ p c = true := by
    intro a
    constructor
    · rintro ⟨inside, c, isIn, taken⟩
      have length := congrArg List.length taken
      rw [List.length_take, Nat.min_eq_left inside] at length
      cases cs with
      | nil => simp at taken
      | cons d rest =>
          obtain rfl : a = 1 := length
          cases taken
          exact ⟨rfl, c, rest, rfl, isIn⟩
    · rintro ⟨rfl, c, rest, rfl, isIn⟩
      exact ⟨by simp, c, isIn, rfl⟩
  rw [starts_mul]
  constructor
  · rintro ⟨a, b, rfl, first, second⟩
    obtain ⟨rfl, c, rest, rfl, isIn⟩ := (one a).mp first
    exact ⟨c, rest, b, rfl, isIn, Nat.add_comm 1 b, second⟩
  · rintro ⟨c, rest, m, rfl, isIn, rfl, second⟩
    exact ⟨1, m, Nat.add_comm m 1, (one 1).mpr ⟨rfl, c, rest, rfl, isIn⟩, second⟩

theorem starts_oneOf :
    Starts (oneOf p) cs n ↔ n = 1 ∧ ∃ c rest, cs = c :: rest ∧ p c = true := by
  rw [← mul_one (oneOf p), starts_oneOf_mul]
  constructor
  · rintro ⟨c, rest, m, rfl, isIn, rfl, none⟩
    rw [starts_one.mp none]
    exact ⟨rfl, c, rest, rfl, isIn⟩
  · rintro ⟨rfl, c, rest, rfl, isIn⟩
    exact ⟨c, rest, 0, rfl, isIn, rfl, starts_one.mpr rfl⟩

theorem starts_kstar_mul :
    Starts (L∗ * M) cs n ↔ Starts M cs n ∨ Starts (L * (L∗ * M)) cs n := by
  nth_rewrite 1 [← Language.one_add_self_mul_kstar_eq_kstar]
  rw [add_mul, one_mul, mul_assoc, starts_add]

end Starts

section Runs

variable {p : Char → Bool} {c : Char} {cs : List Char} {n : Nat}

theorem runLength_nil : runLength p [] = 0 := rfl

theorem runLength_cons_pos (h : p c = true) : runLength p (c :: cs) = runLength p cs + 1 := by
  simp [runLength, h]

theorem runLength_cons_neg (h : p c = false) : runLength p (c :: cs) = 0 := by
  simp [runLength, h]

theorem all_take_iff : n ≤ runLength p cs ↔ n ≤ cs.length ∧ ∀ c ∈ cs.take n, p c = true := by
  induction cs generalizing n with
  | nil =>
      rw [runLength_nil, List.length_nil]
      simp
  | cons c cs ih =>
      cases n with
      | zero => simp
      | succ n =>
          cases isIn : p c with
          | true =>
              rw [runLength_cons_pos isIn, Nat.add_le_add_iff_right, ih]
              simp [isIn]
          | false =>
              rw [runLength_cons_neg isIn]
              simp [isIn]

theorem mem_kstar_oneOf {word : List Char} : word ∈ (oneOf p)∗ ↔ ∀ c ∈ word, p c = true := by
  constructor
  · rintro ⟨parts, rfl, each⟩ c mem
    obtain ⟨part, isPart, inside⟩ := List.mem_flatten.mp mem
    obtain ⟨d, isIn, rfl⟩ := each part isPart
    rw [List.mem_singleton.mp inside]
    exact isIn
  · intro each
    refine ⟨word.map fun c => [c], (List.flatMap_singleton' word).symm, ?_⟩
    intro part isPart
    obtain ⟨c, mem, rfl⟩ := List.mem_map.mp isPart
    exact ⟨c, each c mem, rfl⟩

/-- A star over a class matches every start of a run. -/
theorem starts_kstar_oneOf : Starts (oneOf p)∗ cs n ↔ n ≤ runLength p cs := by
  rw [all_take_iff, Starts, mem_kstar_oneOf]

theorem starts_someOf : Starts (someOf p) cs n ↔ 0 < n ∧ n ≤ runLength p cs := by
  rw [someOf, starts_oneOf_mul]
  constructor
  · rintro ⟨c, rest, m, rfl, isIn, rfl, more⟩
    rw [starts_kstar_oneOf] at more
    rw [runLength_cons_pos isIn]
    omega
  · rintro ⟨positive, inside⟩
    cases cs with
    | nil =>
        rw [runLength_nil] at inside
        omega
    | cons c rest =>
        cases isIn : p c with
        | false =>
            rw [runLength_cons_neg isIn] at inside
            omega
        | true =>
            rw [runLength_cons_pos isIn] at inside
            exact ⟨c, rest, n - 1, rfl, isIn, by omega, starts_kstar_oneOf.mpr (by omega)⟩

theorem starts_someOf_mul {L : Language Char} :
    Starts (someOf p * L) cs n ↔
      ∃ a b, n = a + b ∧ 0 < a ∧ a ≤ runLength p cs ∧ Starts L (cs.drop a) b := by
  simp only [starts_mul, starts_someOf, and_assoc]

/-- Past a part of a run the rest of it stands. -/
theorem runLength_drop (h : n ≤ runLength p cs) :
    runLength p (cs.drop n) = runLength p cs - n := by
  induction cs generalizing n with
  | nil => simp [runLength]
  | cons c cs ih =>
      cases n with
      | zero => simp
      | succ n =>
          cases isIn : p c with
          | false =>
              rw [runLength_cons_neg isIn] at h
              omega
          | true =>
              rw [runLength_cons_pos isIn] at h ⊢
              rw [List.drop_succ_cons, ih (by omega)]
              omega

/-- Before its end, a run goes on with a character of the class. -/
theorem run_goes_on (h : n < runLength p cs) : ∃ c rest, cs.drop n = c :: rest ∧ p c = true := by
  have more := runLength_drop (Nat.le_of_lt h)
  cases eq : cs.drop n with
  | nil =>
      rw [eq, runLength_nil] at more
      omega
  | cons c rest =>
      cases isIn : p c with
      | true => exact ⟨c, rest, rfl, isIn⟩
      | false =>
          rw [eq, runLength_cons_neg isIn] at more
          omega

end Runs

/-- The length of the longest word at the start of a text, zero if there is none. -/
structure IsLongest (L : Language Char) (cs : List Char) (n : Nat) : Prop where
  found : n ≠ 0 → Starts L cs n
  longest : ∀ m, Starts L cs m → m ≤ n

namespace Pattern

variable {cs : List Char} {n : Nat}

theorem isLongest_mark (m : Mark) (cs : List Char) :
    IsLongest (language (.mark m)) cs (longest (.mark m) cs) := by
  have words : ∀ n, Starts (language (.mark m)) cs n ↔
      n = m.text.length ∧ m.text.toList <+: cs := by
    intro n
    simp only [Starts, language]
    constructor
    · rintro ⟨inside, taken⟩
      have taken : cs.take n = m.text.toList := taken
      have length := congrArg List.length taken
      rw [List.length_take, Nat.min_eq_left inside] at length
      exact ⟨length.trans String.length_toList, taken ▸ List.take_prefix n cs⟩
    · rintro ⟨rfl, rest, rfl⟩
      refine ⟨by simp [← String.length_toList], ?_⟩
      have taken : (m.text.toList ++ rest).take m.text.length = m.text.toList := by
        simp [← String.length_toList]
      exact taken
  rw [longest]
  constructor
  · intro found
    split at found
    · rename_i isPrefix
      rw [if_pos isPrefix]
      exact (words _).mpr ⟨rfl, List.isPrefixOf_iff_prefix.mp isPrefix⟩
    · exact absurd rfl found
  · intro n starts
    obtain ⟨rfl, isPrefix⟩ := (words n).mp starts
    rw [if_pos (List.isPrefixOf_iff_prefix.mpr isPrefix)]

/-- A run of a class is its own longest start. -/
theorem isLongest_run (p : Char → Bool) (cs : List Char) :
    IsLongest (someOf p) cs (runLength p cs) where
  found some := starts_someOf.mpr ⟨Nat.pos_of_ne_zero some, Nat.le_refl _⟩
  longest _ starts := (starts_someOf.mp starts).2

theorem starts_name : Starts nameLanguage cs n ↔ 0 < n ∧ n ≤ afterWordStart cs := by
  rw [nameLanguage, starts_oneOf_mul]
  cases cs with
  | nil =>
      simp only [afterWordStart]
      constructor
      · rintro ⟨c, rest, m, ⟨⟩, _⟩
      · omega
  | cons c rest =>
      simp only [List.cons.injEq, afterWordStart]
      constructor
      · rintro ⟨_, _, m, ⟨rfl, rfl⟩, isStart, rfl, more⟩
        rw [starts_kstar_oneOf] at more
        rw [if_pos isStart]
        omega
      · rintro ⟨positive, inside⟩
        split at inside
        · rename_i isStart
          exact ⟨c, rest, n - 1, ⟨rfl, rfl⟩, isStart, by omega,
            starts_kstar_oneOf.mpr (by omega)⟩
        · omega

theorem isLongest_word (cs : List Char) : IsLongest nameLanguage cs (afterWordStart cs) where
  found some := starts_name.mpr ⟨Nat.pos_of_ne_zero some, Nat.le_refl _⟩
  longest _ starts := (starts_name.mp starts).2

/-- A language whose words begin with a character of a class, at such a character. -/
theorem isLongest_after {L : Language Char} {p : Char → Bool} {c : Char} {rest : List Char}
    {m : Nat} (isIn : p c = true) (h : IsLongest L rest m) (nonempty : ¬ Starts L rest 0) :
    IsLongest (oneOf p * L) (c :: rest) (if m = 0 then 0 else 1 + m) := by
  have words : ∀ n, Starts (oneOf p * L) (c :: rest) n ↔ ∃ k, n = k + 1 ∧ Starts L rest k := by
    intro n
    rw [starts_oneOf_mul]
    constructor
    · rintro ⟨_, _, k, ⟨⟩, _, rfl, more⟩
      exact ⟨k, rfl, more⟩
    · rintro ⟨k, rfl, more⟩
      exact ⟨c, rest, k, rfl, isIn, rfl, more⟩
  constructor
  · intro some
    by_cases none : m = 0
    · rw [if_pos none] at some
      exact absurd rfl some
    · rw [if_neg none]
      exact (words _).mpr ⟨m, Nat.add_comm 1 m, h.found none⟩
  · intro n starts
    obtain ⟨k, rfl, more⟩ := (words n).mp starts
    have bound := h.longest k more
    have positive : k ≠ 0 := by
      rintro rfl
      exact nonempty more
    rw [if_neg (by omega)]
    omega

/-- Elsewhere it has no word. -/
theorem isLongest_elsewhere {L : Language Char} {p : Char → Bool}
    (h : ∀ c rest, cs = c :: rest → p c = false) : IsLongest (oneOf p * L) cs 0 where
  found some := absurd rfl some
  longest n starts := by
    obtain ⟨c, rest, m, eq, isIn, _⟩ := starts_oneOf_mul.mp starts
    rw [h c rest eq] at isIn
    cases isIn

/-- A pattern whose words begin with a given character: it is measured after this character,
and it has no match elsewhere. -/
theorem isLongest_marked {p : Pattern} {L : Language Char} {m : List Char → Nat} (c : Char)
    (language : p.language = oneOf (· == c) * L) (after : ∀ rest, IsLongest L rest (m rest))
    (nonempty : ∀ rest, ¬ Starts L rest 0)
    (here : ∀ rest, p.longest (c :: rest) = if m rest = 0 then 0 else 1 + m rest)
    (elsewhere : ∀ cs, (∀ rest, cs ≠ c :: rest) → p.longest cs = 0) (cs : List Char) :
    IsLongest p.language cs (p.longest cs) := by
  rw [language]
  by_cases isHere : ∃ rest, cs = c :: rest
  · obtain ⟨rest, rfl⟩ := isHere
    rw [here]
    exact isLongest_after (beq_self_eq_true c) (after rest) (nonempty rest)
  · rw [elsewhere cs fun rest eq => isHere ⟨rest, eq⟩]
    refine isLongest_elsewhere fun d rest eq => ?_
    by_contra isIn
    rw [Bool.not_eq_false, beq_iff_eq] at isIn
    exact isHere ⟨rest, isIn ▸ eq⟩

theorem isLongest_directive (cs : List Char) :
    IsLongest (language .directive) cs (longest .directive cs) := by
  refine isLongest_marked '.' rfl isLongest_word ?_ (fun _ => rfl) ?_ cs
  · intro rest starts
    have := (starts_name.mp starts).1
    omega
  · intro cs other
    unfold longest
    split <;> simp_all

/-- The inside of a string and its closing quote. -/
def stringEnd : Language Char := stringPart∗ * oneOf (· == '"')

/-- It is the quote, or one part of the inside before another such end. -/
theorem starts_stringEnd_iff :
    Starts stringEnd cs n ↔
      (n = 1 ∧ ∃ rest, cs = '"' :: rest) ∨
      (∃ c rest m, cs = c :: rest ∧ c ≠ '"' ∧ c ≠ '\\' ∧ n = m + 1 ∧ Starts stringEnd rest m) ∨
      ∃ d rest m, cs = '\\' :: d :: rest ∧ d ≠ '\n' ∧ n = m + 2 ∧ Starts stringEnd rest m := by
  rw [stringEnd, starts_kstar_mul, starts_oneOf, ← stringEnd, stringPart, add_mul, starts_add,
    mul_assoc, starts_oneOf_mul, starts_oneOf_mul]
  simp only [starts_oneOf_mul, beq_iff_eq, Bool.and_eq_true, bne_iff_ne]
  constructor
  · rintro (⟨rfl, c, rest, rfl, rfl⟩ | ⟨c, rest, m, rfl, ⟨quote, slash⟩, rfl, more⟩ |
      ⟨c, _, _, rfl, rfl, rfl, d, rest, m, rfl, line, rfl, more⟩)
    · exact .inl ⟨rfl, rest, rfl⟩
    · exact .inr (.inl ⟨c, rest, m, rfl, quote, slash, rfl, more⟩)
    · exact .inr (.inr ⟨d, rest, m, rfl, line, rfl, more⟩)
  · rintro (⟨rfl, rest, rfl⟩ | ⟨c, rest, m, rfl, quote, slash, rfl, more⟩ |
      ⟨d, rest, m, rfl, line, rfl, more⟩)
    · exact .inl ⟨rfl, '"', rest, rfl, rfl⟩
    · exact .inr (.inl ⟨c, rest, m, rfl, ⟨quote, slash⟩, rfl, more⟩)
    · exact .inr (.inr ⟨'\\', _, _, rfl, rfl, rfl, d, rest, m, rfl, line, rfl, more⟩)

/-- A string ends at its closing quote and nowhere else. -/
theorem starts_stringEnd : Starts stringEnd cs n ↔ closingQuote cs = some n := by
  fun_induction closingQuote cs generalizing n with
  | case1 | case3 | case4 ds =>
      rw [starts_stringEnd_iff]
      simp
  | case2 cs =>
      rw [starts_stringEnd_iff]
      simp [eq_comm]
  | case5 d ds other _ ih =>
      rw [starts_stringEnd_iff, Option.map_eq_some_iff]
      simp [ih, other, and_comm, eq_comm]
  | case6 c cs quote slash ih =>
      rw [starts_stringEnd_iff, Option.map_eq_some_iff]
      simp [ih, quote, slash, and_comm, eq_comm]

theorem isLongest_string (cs : List Char) :
    IsLongest (language .string) cs (longest .string cs) := by
  have after : ∀ rest, IsLongest stringEnd rest ((closingQuote rest).getD 0) := by
    intro rest
    constructor
    · intro found
      cases closed : closingQuote rest with
      | none => simp [closed] at found
      | some n => exact starts_stringEnd.mpr closed
    · intro m starts
      rw [starts_stringEnd.mp starts]
      exact Nat.le_refl m
  have positive : ∀ rest, ¬ Starts stringEnd rest 0 := by
    intro rest starts
    rcases starts_stringEnd_iff.mp starts with ⟨_, _⟩ | ⟨_, _, _, _, _, _, _, _⟩ | ⟨_, _, _, _, _, _, _⟩
    all_goals omega
  refine isLongest_marked '"' rfl after positive ?_ ?_ cs
  · intro rest
    have some := positive rest
    rw [starts_stringEnd] at some
    rw [longest]
    cases closed : closingQuote rest with
    | none => rfl
    | some n =>
        have : n ≠ 0 := by
          rintro rfl
          exact some closed
        simp [this]
  · intro cs other
    unfold longest
    split <;> simp_all

/-- A class letter and digits. -/
def numberedLength : List Char → Nat
  | c :: cs =>
      if isRegisterLetter c then
        let digits := runLength Char.isDigit cs
        if digits = 0 then 0 else 1 + digits
      else 0
  | [] => 0

theorem isLongest_register (cs : List Char) :
    IsLongest (language .register) cs (longest .register cs) := by
  refine isLongest_marked (m := numberedLength) '$' rfl ?_ ?_ ?_ ?_ cs
  · intro rest
    cases rest with
    | nil => exact isLongest_elsewhere fun c rest eq => by cases eq
    | cons c cs =>
        rw [numberedLength]
        split
        · rename_i isLetter
          refine isLongest_after isLetter (isLongest_run Char.isDigit cs) fun starts => ?_
          have := (starts_someOf.mp starts).1
          omega
        · rename_i other
          refine isLongest_elsewhere ?_
          rintro _ _ ⟨⟩
          exact Bool.eq_false_iff.mpr other
  · intro rest starts
    obtain ⟨c, rest, m, rfl, _, _, _⟩ := starts_oneOf_mul.mp starts
    omega
  · intro rest
    cases rest with
    | nil => rfl
    | cons c cs =>
        rw [longest, numberedLength]
        split
        · dsimp only
          split
          · rfl
          · rw [if_neg (by omega)]
            omega
        · rfl
  · intro cs other
    unfold longest
    split <;> simp_all

theorem isLongest_comment (cs : List Char) :
    IsLongest (language .comment) cs (longest .comment cs) := by
  have words : ∀ n, Starts (language .comment) cs n ↔ ∃ rest m, cs = '#' :: rest ∧ n = m + 1 ∧
      m ≤ runLength (fun c => c != '\r' && c != '\n') rest := by
    intro n
    rw [language, starts_oneOf_mul]
    constructor
    · rintro ⟨c, rest, m, rfl, isHash, rfl, more⟩
      exact ⟨rest, m, by rw [beq_iff_eq.mp isHash], rfl, starts_kstar_oneOf.mp more⟩
    · rintro ⟨rest, m, rfl, rfl, more⟩
      exact ⟨'#', rest, m, rfl, rfl, rfl, starts_kstar_oneOf.mpr more⟩
  by_cases isHere : ∃ rest, cs = '#' :: rest
  · obtain ⟨rest, rfl⟩ := isHere
    rw [longest]
    constructor
    · exact fun _ => (words _).mpr ⟨rest, _, rfl, Nat.add_comm 1 _, Nat.le_refl _⟩
    · intro n starts
      obtain ⟨_, m, ⟨⟩, rfl, more⟩ := (words n).mp starts
      omega
  · have none : longest .comment cs = 0 := by
      unfold longest
      split <;> simp_all
    rw [none]
    refine ⟨fun some => absurd rfl some, fun n starts => ?_⟩
    obtain ⟨rest, m, eq, _⟩ := (words n).mp starts
    exact absurd ⟨rest, eq⟩ isHere

/-- The length of digits after a prefix of two characters. -/
theorem starts_prefixed {p : Char → Bool} {c : Char} :
    Starts (oneOf (· == '0') * (oneOf (· == c) * someOf p)) cs n ↔
      ∃ rest m, cs = '0' :: c :: rest ∧ n = m + 2 ∧ 0 < m ∧ m ≤ runLength p rest := by
  rw [starts_oneOf_mul]
  simp only [starts_oneOf_mul, beq_iff_eq, starts_someOf]
  constructor
  · rintro ⟨_, _, _, rfl, rfl, rfl, _, rest, m, rfl, rfl, rfl, more⟩
    exact ⟨rest, m, rfl, rfl, more⟩
  · rintro ⟨rest, m, rfl, rfl, more⟩
    exact ⟨'0', _, _, rfl, rfl, rfl, c, rest, m, rfl, rfl, rfl, more⟩

theorem starts_integer :
    Starts (language .integer) cs n ↔
      (∃ rest m, cs = '0' :: 'x' :: rest ∧ n = m + 2 ∧ 0 < m ∧ m ≤ runLength isHexDigit rest) ∨
      (∃ rest m, cs = '0' :: 'b' :: rest ∧ n = m + 2 ∧ 0 < m ∧ m ≤ runLength isBit rest) ∨
      0 < n ∧ n ≤ runLength Char.isDigit cs := by
  rw [language, starts_add, starts_add, starts_prefixed, starts_prefixed, starts_someOf, or_assoc]

theorem isLongest_integer (cs : List Char) :
    IsLongest (language .integer) cs (longest .integer cs) := by
  rw [longest]
  fun_cases integerLength cs with
  | case1 rest digits none =>
      have run : runLength Char.isDigit ('0' :: 'x' :: rest) = 1 := rfl
      refine ⟨fun _ => starts_integer.mpr (.inr (.inr (by omega))), fun n starts => ?_⟩
      rcases starts_integer.mp starts with ⟨_, m, ⟨⟩, rfl, some, more⟩ | ⟨_, m, ⟨⟩, _⟩ | ⟨_, more⟩
      all_goals omega
  | case2 rest digits some =>
      have run : runLength Char.isDigit ('0' :: 'x' :: rest) = 1 := rfl
      refine ⟨fun _ => starts_integer.mpr (.inl ⟨rest, digits, rfl, ?_⟩), fun n starts => ?_⟩
      · omega
      · rcases starts_integer.mp starts with ⟨_, m, ⟨⟩, rfl, _, more⟩ | ⟨_, m, ⟨⟩, _⟩ | ⟨_, more⟩
        all_goals omega
  | case3 rest digits none =>
      have run : runLength Char.isDigit ('0' :: 'b' :: rest) = 1 := rfl
      refine ⟨fun _ => starts_integer.mpr (.inr (.inr (by omega))), fun n starts => ?_⟩
      rcases starts_integer.mp starts with ⟨_, m, ⟨⟩, _⟩ | ⟨_, m, ⟨⟩, rfl, some, more⟩ | ⟨_, more⟩
      all_goals omega
  | case4 rest digits some =>
      have run : runLength Char.isDigit ('0' :: 'b' :: rest) = 1 := rfl
      refine ⟨fun _ => starts_integer.mpr (.inr (.inl ⟨rest, digits, rfl, ?_⟩)), fun n starts => ?_⟩
      · omega
      · rcases starts_integer.mp starts with ⟨_, m, ⟨⟩, _⟩ | ⟨_, m, ⟨⟩, rfl, _, more⟩ | ⟨_, more⟩
        all_goals omega
  | case5 cs hex binary =>
      refine ⟨fun some => starts_integer.mpr (.inr (.inr (by omega))), fun n starts => ?_⟩
      rcases starts_integer.mp starts with ⟨rest, m, eq, _⟩ | ⟨rest, m, eq, _⟩ | ⟨_, more⟩
      · exact absurd eq (hex rest)
      · exact absurd eq (binary rest)
      · exact more

/-- A digit ends where the class does: what begins otherwise comes after the whole run. -/
theorem starts_digits_mul {L : Language Char}
    (other : ∀ c rest m, c.isDigit = true → ¬ Starts L (c :: rest) m) :
    Starts (someOf Char.isDigit * L) cs n ↔
      0 < runLength Char.isDigit cs ∧ ∃ b, n = runLength Char.isDigit cs + b ∧
        Starts L (cs.drop (runLength Char.isDigit cs)) b := by
  rw [starts_someOf_mul]
  constructor
  · rintro ⟨a, b, rfl, positive, inside, more⟩
    have whole : a = runLength Char.isDigit cs := by
      by_contra part
      obtain ⟨c, rest, eq, isDigit⟩ := run_goes_on (show a < runLength Char.isDigit cs by omega)
      rw [eq] at more
      exact other c rest b isDigit more
    exact ⟨whole ▸ positive, b, by rw [whole], whole ▸ more⟩
  · rintro ⟨positive, b, rfl, more⟩
    exact ⟨_, b, rfl, positive, Nat.le_refl _, more⟩

def signedDigits : Language Char :=
  (1 + oneOf fun c => c == '+' || c == '-') * someOf Char.isDigit

theorem starts_signedDigits :
    Starts signedDigits cs n ↔
      (0 < n ∧ n ≤ runLength Char.isDigit cs) ∨ ∃ d rest m, cs = d :: rest ∧ (d = '+' ∨ d = '-') ∧
        n = m + 1 ∧ 0 < m ∧ m ≤ runLength Char.isDigit rest := by
  rw [signedDigits, add_mul, one_mul, starts_add, starts_oneOf_mul]
  simp only [starts_someOf, Bool.or_eq_true, beq_iff_eq]

theorem isLongest_signedDigits (cs : List Char) :
    IsLongest signedDigits cs (exponent ('e' :: cs) - 1) := by
  cases cs with
  | nil =>
      refine ⟨fun some => absurd rfl some, fun n starts => ?_⟩
      rcases starts_signedDigits.mp starts with ⟨some, more⟩ | ⟨d, rest, m, ⟨⟩, _⟩
      exact more
  | cons d rest =>
      by_cases isSign : d = '+' ∨ d = '-'
      · have none : runLength Char.isDigit (d :: rest) = 0 := by
          rcases isSign with rfl | rfl <;> rfl
        simp only [exponent, isSign, if_true, true_or, List.drop_succ_cons, List.drop_zero]
        refine ⟨fun some => ?_, fun n starts => ?_⟩
        · split at some
          · exact absurd rfl some
          · rename_i digits
            rw [if_neg digits]
            exact starts_signedDigits.mpr (.inr ⟨d, rest, runLength Char.isDigit rest, rfl, isSign,
              by omega, by omega, Nat.le_refl _⟩)
        · rcases starts_signedDigits.mp starts with ⟨some, more⟩ | ⟨_, _, m, ⟨⟩, _, rfl, some, more⟩
          · omega
          · rw [if_neg (by omega)]
            omega
      · simp only [exponent, isSign, if_true, if_false, true_or, List.drop_zero]
        refine ⟨fun some => ?_, fun n starts => ?_⟩
        · split at some
          · exact absurd rfl some
          · rename_i digits
            rw [if_neg digits]
            exact starts_signedDigits.mpr (.inl (by omega))
        · rcases starts_signedDigits.mp starts with ⟨some, more⟩ | ⟨_, _, m, ⟨⟩, sign, _⟩
          · rw [if_neg (by omega)]
            omega
          · exact absurd sign isSign

theorem exponent_cons (c : Char) (rest : List Char) :
    exponent (c :: rest) = if c = 'e' ∨ c = 'E' then exponent ('e' :: rest) else 0 := by
  simp only [exponent, true_or, if_true]

theorem exponent_ne_one (rest : List Char) : exponent ('e' :: rest) ≠ 1 := by
  have longer : ∀ sign digits : Nat, (if digits = 0 then 0 else 1 + sign + digits) ≠ 1 := by
    intro sign digits
    split <;> omega
  exact longer _ _

theorem isLongest_exponent (cs : List Char) : IsLongest exponentLanguage cs (exponent cs) := by
  cases cs with
  | nil => exact isLongest_elsewhere fun c rest eq => by cases eq
  | cons c rest =>
      rw [exponent_cons]
      split
      · rename_i isMark
        have nonempty : ¬ Starts signedDigits rest 0 := by
          intro starts
          rcases starts_signedDigits.mp starts with ⟨_, _⟩ | ⟨_, _, _, _, _, _, _⟩
          all_goals omega
        have after := isLongest_after (p := fun c => c == 'e' || c == 'E') (c := c)
          (by simpa using isMark) (isLongest_signedDigits rest) nonempty
        have other := exponent_ne_one rest
        have same : (if exponent ('e' :: rest) - 1 = 0 then 0 else
            1 + (exponent ('e' :: rest) - 1)) = exponent ('e' :: rest) := by
          split <;> omega
        rw [same] at after
        exact after
      · rename_i other
        refine isLongest_elsewhere ?_
        rintro _ _ ⟨⟩
        simpa using other

/-- The digits after the point, with the exponent. -/
theorem starts_fraction :
    Starts (someOf Char.isDigit * (1 + exponentLanguage)) cs n ↔
      (0 < n ∧ n ≤ runLength Char.isDigit cs) ∨
        0 < runLength Char.isDigit cs ∧ ∃ b, n = runLength Char.isDigit cs + b ∧
          Starts exponentLanguage (cs.drop (runLength Char.isDigit cs)) b := by
  have other : ∀ c rest m, c.isDigit = true → ¬ Starts exponentLanguage (c :: rest) m := by
    intro c rest m isDigit starts
    obtain ⟨_, _, _, ⟨⟩, isMark, _⟩ := starts_oneOf_mul.mp starts
    rcases (by simpa using isMark : c = 'e' ∨ c = 'E') with rfl | rfl <;> cases isDigit
  rw [mul_add, mul_one, starts_add, starts_someOf, starts_digits_mul other]

theorem starts_float :
    Starts (language .float) cs n ↔
      0 < runLength Char.isDigit cs ∧ ∃ rest m,
        cs.drop (runLength Char.isDigit cs) = '.' :: rest ∧
        n = runLength Char.isDigit cs + 1 + m ∧
        Starts (someOf Char.isDigit * (1 + exponentLanguage)) rest m := by
  have other : ∀ c rest m, c.isDigit = true → ¬ Starts (oneOf (· == '.') *
      (someOf Char.isDigit * (1 + exponentLanguage))) (c :: rest) m := by
    intro c rest m isDigit starts
    obtain ⟨_, _, _, ⟨⟩, isPoint, _⟩ := starts_oneOf_mul.mp starts
    rw [beq_iff_eq.mp isPoint] at isDigit
    cases isDigit
  rw [language, starts_digits_mul other]
  refine and_congr_right fun _ => ?_
  simp only [starts_oneOf_mul, beq_iff_eq]
  constructor
  · rintro ⟨_, rfl, _, rest, m, eq, rfl, rfl, more⟩
    exact ⟨rest, m, eq, by omega, more⟩
  · rintro ⟨rest, m, eq, rfl, more⟩
    exact ⟨m + 1, by omega, '.', rest, m, eq, rfl, rfl, more⟩

theorem isLongest_float (cs : List Char) :
    IsLongest (language .float) cs (longest .float cs) := by
  rw [longest]
  fun_cases floatLength cs with
  | case1 whole none =>
      refine ⟨fun some => absurd rfl some, fun n starts => ?_⟩
      have := (starts_float.mp starts).1
      omega
  | case2 whole some rest eq fraction none =>
      refine ⟨fun some => absurd rfl some, fun n starts => ?_⟩
      obtain ⟨_, rest', m, eq', _, more⟩ := starts_float.mp starts
      obtain rfl : rest = rest' := by simpa using eq.symm.trans eq'
      rcases starts_fraction.mp more with ⟨_, _⟩ | ⟨_, _⟩
      all_goals omega
  | case3 whole some rest eq fraction digits =>
      have tail := isLongest_exponent (rest.drop fraction)
      refine ⟨fun _ => starts_float.mpr ⟨by omega, rest, fraction + exponent (rest.drop fraction),
        eq, by omega, starts_fraction.mpr ?_⟩, fun n starts => ?_⟩
      · by_cases none : exponent (rest.drop fraction) = 0
        · exact .inl (by omega)
        · exact .inr ⟨by omega, _, rfl, tail.found none⟩
      · obtain ⟨_, rest', m, eq', rfl, more⟩ := starts_float.mp starts
        obtain rfl : rest = rest' := by simpa using eq.symm.trans eq'
        rcases starts_fraction.mp more with ⟨_, _⟩ | ⟨_, b, rfl, last⟩
        · omega
        · have := tail.longest b last
          omega
  | case4 whole some noPoint =>
      refine ⟨fun some => absurd rfl some, fun n starts => ?_⟩
      obtain ⟨_, rest, m, eq, _⟩ := starts_float.mp starts
      exact absurd eq (noPoint rest)

/-- The length that a pattern reports is the greatest length of a word at the start. -/
theorem isLongest (p : Pattern) (cs : List Char) : IsLongest p.language cs (p.longest cs) := by
  cases p with
  | mark m => exact isLongest_mark m cs
  | newline => exact isLongest_run _ cs
  | directive => exact isLongest_directive cs
  | string => exact isLongest_string cs
  | float => exact isLongest_float cs
  | integer => exact isLongest_integer cs
  | register => exact isLongest_register cs
  | word => exact isLongest_word cs
  | layout => exact isLongest_run _ cs
  | comment => exact isLongest_comment cs

end Pattern
end OpSelect
