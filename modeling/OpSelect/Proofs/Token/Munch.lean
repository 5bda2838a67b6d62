import OpSelect.Proofs.Token.Payload

/-!
Maximal munch. A text is cut into pieces that cover it. Each piece is the longest word that any
pattern has at its place, or a stray text where no pattern has a word; only keywords share their
words with another pattern. The tokens of a text are those of its pieces, unless a piece is bad;
then the bad pieces are reported on.
-/

namespace OpSelect

open Computability

/-- Characters by what can begin with them. -/
inductive Lead where
  | newline | dot | quote | digit | dollar | letter | layout | hash | sign
deriving DecidableEq, Repr

namespace Lead

def of (c : Char) : Lead :=
  if c = '\n' then newline
  else if c = '.' then dot
  else if c = '"' then quote
  else if c = '$' then dollar
  else if c = '#' then hash
  else if c.isDigit then digit
  else if isWordStart c then letter
  else if isLayout c then layout
  else sign

theorem of_isDigit {c : Char} (h : c.isDigit = true) : of c = digit := by
  have line : c ≠ '\n' := by rintro rfl; cases h
  have point : c ≠ '.' := by rintro rfl; cases h
  have mark : c ≠ '"' := by rintro rfl; cases h
  have coin : c ≠ '$' := by rintro rfl; cases h
  have cross : c ≠ '#' := by rintro rfl; cases h
  simp [of, *]

theorem not_isDigit_of_isWordStart {c : Char} (h : isWordStart c = true) : c.isDigit = false := by
  apply Bool.eq_false_iff.mpr
  intro isDigit
  delta isWordStart Char.isAlpha Char.isUpper Char.isLower at h
  simp only [Bool.or_eq_true, Bool.and_eq_true, decide_eq_true_eq, ge_iff_le,
    UInt32.le_iff_toNat_le, beq_iff_eq] at h
  simp only [Char.isDigit, Bool.and_eq_true, decide_eq_true_eq, ge_iff_le,
    UInt32.le_iff_toNat_le] at isDigit
  change 48 ≤ c.val.toNat ∧ c.val.toNat ≤ 57 at isDigit
  change ((65 ≤ c.val.toNat ∧ c.val.toNat ≤ 90) ∨ (97 ≤ c.val.toNat ∧ c.val.toNat ≤ 122)) ∨
    c = '_' at h
  rcases h with (_ | _) | rfl
  · omega
  · omega
  · exact absurd isDigit (by decide)

theorem of_isWordStart {c : Char} (h : isWordStart c = true) : of c = letter := by
  have line : c ≠ '\n' := by rintro rfl; cases h
  have point : c ≠ '.' := by rintro rfl; cases h
  have mark : c ≠ '"' := by rintro rfl; cases h
  have coin : c ≠ '$' := by rintro rfl; cases h
  have cross : c ≠ '#' := by rintro rfl; cases h
  have number := not_isDigit_of_isWordStart h
  simp [of, *]

theorem of_isLayout {c : Char} (h : isLayout c = true) : of c = layout := by
  rcases (by simpa [isLayout, or_assoc] using h : c = ' ' ∨ c = '\t' ∨ c = '\r' ∨ c = '\x0c') with
    rfl | rfl | rfl | rfl <;> rfl

end Lead

namespace Pattern

/-- What the words of a pattern begin with. -/
def lead : Pattern → Lead
  | mark m => (m.text.toList.head?.map Lead.of).getD .sign
  | newline => .newline
  | directive => .dot
  | string => .quote
  | float | integer => .digit
  | register => .dollar
  | word => .letter
  | layout => .layout
  | comment => .hash

variable {p q : Pattern} {cs text : List Char} {c : Char} {n : Nat}

theorem head_of_mem_mul {class' : Char → Bool} {L : Language Char}
    (h : c :: text ∈ oneOf class' * L) : class' c = true := by
  obtain ⟨_, ⟨d, isIn, rfl⟩, rest, _, eq⟩ := Language.mem_mul.mp h
  obtain ⟨rfl, _⟩ := List.cons.inj eq
  exact isIn

theorem eq_of_mem_mul {d : Char} {L : Language Char} (h : c :: text ∈ oneOf (· == d) * L) :
    c = d := by
  have isIn := head_of_mem_mul h
  exact beq_iff_eq.mp isIn

theorem nil_not_mem_mul {class' : Char → Bool} {L : Language Char} :
    [] ∉ oneOf class' * L := by
  intro h
  obtain ⟨_, ⟨d, _, rfl⟩, rest, _, eq⟩ := Language.mem_mul.mp h
  cases eq

theorem mem_mark {m : Mark} : text ∈ language (.mark m) ↔ text = m.text.toList := Iff.rfl

theorem text_ne_nil (m : Mark) : m.text.toList ≠ [] := by
  cases m <;> decide

theorem nil_not_mem (p : Pattern) : [] ∉ p.language := by
  cases p with
  | mark m => exact fun h => text_ne_nil m (mem_mark.mp h).symm
  | newline | directive | string | register | word | layout | comment => exact nil_not_mem_mul
  | float =>
      rw [language, someOf, mul_assoc]
      exact nil_not_mem_mul
  | integer =>
      rw [language, Language.mem_add, Language.mem_add]
      rintro ((h | h) | h) <;> exact nil_not_mem_mul h

/-- A word begins as its pattern does. -/
theorem lead_of_mem (h : c :: text ∈ p.language) : Lead.of c = p.lead := by
  cases p with
  | mark m =>
      rw [lead, ← mem_mark.mp h]
      rfl
  | newline | directive | string | register | comment =>
      rw [eq_of_mem_mul h]
      rfl
  | word => exact Lead.of_isWordStart (head_of_mem_mul h)
  | layout => exact Lead.of_isLayout (head_of_mem_mul h)
  | float =>
      rw [language, someOf, mul_assoc] at h
      exact Lead.of_isDigit (head_of_mem_mul h)
  | integer =>
      rw [language, Language.mem_add, Language.mem_add] at h
      rcases h with (h | h) | h
      · rw [eq_of_mem_mul h]
        rfl
      · rw [eq_of_mem_mul h]
        rfl
      · exact Lead.of_isDigit (head_of_mem_mul h)

theorem lead_eq (isP : text ∈ p.language) (isQ : text ∈ q.language) : p.lead = q.lead := by
  cases text with
  | nil => exact absurd isP (nil_not_mem p)
  | cons c text => exact (lead_of_mem isP).symm.trans (lead_of_mem isQ)

theorem text_injective : ∀ m ∈ Mark.all, ∀ m' ∈ Mark.all, m.text = m'.text → m = m' := by
  decide +kernel

theorem mem_markAll (m : Mark) : m ∈ Mark.all := by
  cases m <;> decide

theorem point_mem_float (h : text ∈ language .float) : '.' ∈ text := by
  obtain ⟨whole, _, rest, isRest, rfl⟩ := Language.mem_mul.mp h
  obtain ⟨_, ⟨c, isPoint, rfl⟩, _, _, rfl⟩ := Language.mem_mul.mp isRest
  rw [beq_iff_eq.mp isPoint]
  simp

theorem point_not_mem_integer (h : text ∈ language .integer) : '.' ∉ text := by
  intro mem
  have numeral := numeral_of_mem h
  generalize integerValue text = value at numeral
  cases numeral with
  | hexadecimal digits valid =>
      have isDigit := valid '.' (by simpa using mem)
      cases isDigit
  | binary digits valid =>
      have isDigit := valid '.' (by simpa using mem)
      cases isDigit
  | decimal digits valid => cases valid '.' mem

theorem one_lt_length_directive (h : text ∈ language .directive) : 1 < text.length := by
  obtain ⟨_, ⟨c, _, rfl⟩, _, isName, rfl⟩ := Language.mem_mul.mp h
  obtain ⟨_, ⟨d, _, rfl⟩, _, _, rfl⟩ := Language.mem_mul.mp isName
  simp

/-- A mark shares its word with names only. -/
theorem eq_word_of_mark {m : Mark} (isMark : text ∈ language (.mark m)) (isP : text ∈ p.language)
    (other : ∀ m', p ≠ .mark m') : p = .word := by
  have same := lead_eq isMark isP
  cases p with
  | mark m' => exact absurd rfl (other m')
  | word => rfl
  | newline | string | float | integer | register | layout | comment =>
      cases m <;> exact absurd same (by decide)
  | directive =>
      have long := one_lt_length_directive isP
      rw [mem_mark.mp isMark] at long
      cases m <;> first | exact absurd same (by decide) | exact absurd long (by decide)

/-- No two patterns have a word in common, but for keywords, which are also names. -/
theorem eq_or_keyword (isP : text ∈ p.language) (isQ : text ∈ q.language) :
    p = q ∨ (p = .word ∧ ∃ m, q = .mark m) ∨ q = .word ∧ ∃ m, p = .mark m := by
  by_cases markP : ∃ m, p = .mark m
  · obtain ⟨m, rfl⟩ := markP
    by_cases markQ : ∃ m', q = .mark m'
    · obtain ⟨m', rfl⟩ := markQ
      have texts := (mem_mark.mp isP).symm.trans (mem_mark.mp isQ)
      left
      rw [text_injective m (mem_markAll m) m' (mem_markAll m') (String.toList_inj.mp texts)]
    · exact .inr (.inr ⟨eq_word_of_mark isP isQ fun m' eq => markQ ⟨m', eq⟩, m, rfl⟩)
  · by_cases markQ : ∃ m', q = .mark m'
    · obtain ⟨m', rfl⟩ := markQ
      exact .inr (.inl ⟨eq_word_of_mark isQ isP fun m eq => markP ⟨m, eq⟩, m', rfl⟩)
    · left
      have same := lead_eq isP isQ
      cases p with
      | mark m => exact absurd ⟨m, rfl⟩ markP
      | newline | directive | string | register | word | layout | comment =>
          cases q <;> first | rfl | simp_all [lead]
      | float =>
          cases q with
          | mark m' => exact absurd ⟨m', rfl⟩ markQ
          | float => rfl
          | integer => exact absurd (point_mem_float isP) (point_not_mem_integer isQ)
          | newline | directive | string | register | word | layout | comment => cases same
      | integer =>
          cases q with
          | mark m' => exact absurd ⟨m', rfl⟩ markQ
          | integer => rfl
          | float => exact absurd (point_mem_float isQ) (point_not_mem_integer isP)
          | newline | directive | string | register | word | layout | comment => cases same

theorem mem_all (p : Pattern) : p ∈ all := by
  cases p with
  | mark m => exact List.mem_append_left _ (List.mem_map_of_mem (mem_markAll m))
  | newline | directive | string | float | integer | register | word | layout | comment =>
      exact List.mem_append_right _ (by decide)

/-- The first of the patterns whose match is the longest, if any matches. -/
def FirstLongest (cs : List Char) (seen : List Pattern) : Option (Pattern × Nat) → Prop
  | none => ∀ q ∈ seen, q.longest cs = 0
  | some (p, n) => ∃ before after, seen = before ++ p :: after ∧ p.longest cs = n ∧ n ≠ 0 ∧
      (∀ q ∈ before, q.longest cs < n) ∧ ∀ q ∈ after, q.longest cs ≤ n

/-- The better of what was found and one more pattern. -/
def better (cs : List Char) (found : Option (Pattern × Nat)) (p : Pattern) :
    Option (Pattern × Nat) :=
  let n := p.longest cs
  match found with
  | none => if n = 0 then none else some (p, n)
  | some (_, m) => if m < n then some (p, n) else found

theorem best_eq_foldl (cs : List Char) : best cs = all.foldl (better cs) none := rfl

theorem FirstLongest.step {seen : List Pattern} {found : Option (Pattern × Nat)}
    (h : FirstLongest cs seen found) (p : Pattern) :
    FirstLongest cs (seen ++ [p]) (better cs found p) := by
  unfold better
  cases found with
  | none =>
      dsimp only
      split
      · rename_i zero
        exact List.forall_mem_append.mpr ⟨h, List.forall_mem_singleton.mpr zero⟩
      · rename_i some
        refine ⟨seen, [], rfl, rfl, some, fun q mem => ?_, by simp⟩
        rw [h q mem]
        exact Nat.pos_of_ne_zero some
  | some best =>
      obtain ⟨q, m⟩ := best
      obtain ⟨before, after, rfl, isQ, some, earlier, later⟩ := h
      dsimp only
      split
      · rename_i longer
        refine ⟨_, [], rfl, rfl, by omega, fun r mem => ?_, by simp⟩
        rcases List.mem_append.mp mem with mem | mem
        · have := earlier r mem
          omega
        · rcases List.mem_cons.mp mem with rfl | mem
          · omega
          · have := later r mem
            omega
      · rename_i shorter
        refine ⟨before, after ++ [p], by simp, isQ, some, earlier, ?_⟩
        exact List.forall_mem_append.mpr
          ⟨later, List.forall_mem_singleton.mpr (Nat.le_of_not_lt shorter)⟩

theorem firstLongest_best (cs : List Char) : FirstLongest cs all (best cs) := by
  have fold : ∀ (ps seen : List Pattern) (found : Option (Pattern × Nat)),
      FirstLongest cs seen found → FirstLongest cs (seen ++ ps) (ps.foldl (better cs) found) := by
    intro ps
    induction ps with
    | nil =>
        intro seen found h
        rwa [List.append_nil]
    | cons p ps ih =>
        intro seen found h
        have next := ih (seen ++ [p]) _ (h.step p)
        rwa [List.append_assoc, List.singleton_append] at next
  rw [best_eq_foldl]
  exact fold all [] none (fun q mem => absurd mem List.not_mem_nil)

/-- The marks come before the names. -/
theorem mark_mem_before_word {before after : List Pattern} (m : Mark)
    (h : all = before ++ .word :: after) : .mark m ∈ before := by
  have isMark : Pattern.mark m ∈ Mark.all.map Pattern.mark := List.mem_map_of_mem (mem_markAll m)
  rcases List.append_eq_append_iff.mp h with ⟨others, rfl, _⟩ | ⟨others, marks, rest⟩
  · exact List.mem_append_left _ isMark
  · cases others with
    | nil =>
        rw [marks, List.append_nil] at isMark
        exact isMark
    | cons other others =>
        have inside : Pattern.word ∈ Mark.all.map Pattern.mark := by
          rw [marks, (List.cons.inj rest).1]
          simp
        obtain ⟨_, _, eq⟩ := List.mem_map.mp inside
        cases eq

/-- The pattern takes the text from the start of the rest: no pattern has a longer word there.
A name is not taken where a keyword is. -/
structure Takes (p : Pattern) (rest text : List Char) : Prop where
  isStart : text <+: rest
  mem : text ∈ p.language
  longest : ∀ (q : Pattern) n, Starts q.language rest n → n ≤ text.length
  keyword : p = .word → ∀ m : Mark, m.text.toList ≠ text

/-- At most one pattern takes a text. -/
theorem Takes.unique {rest : List Char} (h : p.Takes rest text) (k : q.Takes rest text) :
    p = q := by
  rcases eq_or_keyword h.mem k.mem with same | ⟨isWord, m, rfl⟩ | ⟨isWord, m, rfl⟩
  · exact same
  · exact absurd (mem_mark.mp k.mem).symm (h.keyword isWord m)
  · exact absurd (mem_mark.mp h.mem).symm (k.keyword isWord m)

theorem starts_le_longest (h : Starts q.language cs n) : n ≤ q.longest cs :=
  (isLongest q cs).longest n h

/-- The best pattern takes what it matches. -/
theorem takes_of_best (h : best cs = some (p, n)) :
    p.Takes cs (cs.take n) ∧ 0 < n ∧ n ≤ cs.length := by
  have first := firstLongest_best cs
  rw [h] at first
  obtain ⟨before, after, whole, isBest, some, earlier, later⟩ := first
  have starts : Starts p.language cs n := by
    have found := (isLongest p cs).found
    rw [isBest] at found
    exact found some
  have length : (cs.take n).length = n := by
    rw [List.length_take, Nat.min_eq_left starts.1]
  refine ⟨⟨List.take_prefix n cs, starts.2, fun q m word => ?_, fun isWord m same => ?_⟩,
    Nat.pos_of_ne_zero some, starts.1⟩
  · have bound := starts_le_longest word
    have mem := mem_all q
    rw [whole] at mem
    rw [length]
    rcases List.mem_append.mp mem with mem | mem
    · have := earlier q mem
      omega
    · rcases List.mem_cons.mp mem with rfl | mem
      · omega
      · have := later q mem
        omega
  · -- the keyword comes earlier among the patterns, and its match would be shorter
    have mark : (cs.take n) ∈ language (.mark m) := mem_mark.mpr same.symm
    have word : Starts (language (.mark m)) cs n := ⟨starts.1, mark⟩
    have bound := starts_le_longest word
    subst isWord
    have := earlier _ (mark_mem_before_word m whole)
    omega

/-- Where there is no best pattern, no pattern has a word. -/
theorem no_word_of_best (h : best cs = none) : ∀ q n, Starts (language q) cs n → n = 0 := by
  have first := firstLongest_best cs
  rw [h] at first
  intro q n word
  have bound := starts_le_longest word
  rw [first q (mem_all q)] at bound
  exact Nat.le_zero.mp bound

end Pattern

/-- A piece is taken by a pattern and stands for what the pattern says, or it is stray: no pattern
has a word at its place. -/
inductive Munch (rest : List Char) : Lexeme → Prop where
  | taken {p : Pattern} {text : List Char} {cls : LexemeClass} (takes : p.Takes rest text)
      (denotes : p.Denotes text cls) : Munch rest ⟨text, cls⟩
  | stray {text : List Char} (isStart : text <+: rest)
      (none : ∀ (p : Pattern) n, Starts p.language rest n → n = 0) : Munch rest ⟨text, .bad⟩

theorem Munch.isStart {rest : List Char} {piece : Lexeme} (h : Munch rest piece) :
    piece.text <+: rest := by
  cases h with
  | taken takes => exact takes.isStart
  | stray isStart => exact isStart

/-- A piece is bad where no pattern has a word, or where the longest one is an integer that is
too large. -/
theorem Munch.bad_iff {rest : List Char} {piece : Lexeme} (h : Munch rest piece)
    (nonempty : piece.text ≠ []) :
    piece.cls = .bad ↔
      (∀ (p : Pattern) n, Starts p.language rest n → n = 0) ∨
        Pattern.Takes .integer rest piece.text ∧
          ∃ value, Numeral piece.text value ∧ maxInteger < value := by
  cases h with
  | @taken p text cls takes denotes =>
      constructor
      · rintro rfl
        cases denotes with
        | overflow _ value numeral tooLarge => exact .inr ⟨takes, value, numeral, tooLarge⟩
      · rintro (none | ⟨isInteger, value, numeral, tooLarge⟩)
        · have word := (starts_iff_isPrefix takes.isStart).mpr takes.mem
          have := none p _ word
          exact absurd (List.length_eq_zero_iff.mp this) nonempty
        · obtain rfl := takes.unique isInteger
          cases denotes with
          | overflow => rfl
          | integer _ other same fits =>
              have equal : other = value := same.eq_integerValue.trans numeral.eq_integerValue.symm
              omega
  | stray isStart none => exact ⟨fun _ => .inl none, fun _ => rfl⟩

theorem badLength_pos (cs : List Char) : 0 < badLength cs := by
  unfold badLength
  split
  · omega
  · split <;> omega
  · omega

theorem firstLexeme_munch {cs : List Char} {n : Nat} {cls : LexemeClass}
    (h : firstLexeme cs = (n, cls)) : 0 < n ∧ Munch cs ⟨cs.take n, cls⟩ := by
  unfold firstLexeme at h
  split at h
  · rename_i p m found
    cases h
    obtain ⟨takes, positive, _⟩ := Pattern.takes_of_best found
    exact ⟨positive, .taken takes (Pattern.denotes_classify takes.mem)⟩
  · rename_i none
    cases h
    exact ⟨badLength_pos cs, .stray (List.take_prefix _ _) (Pattern.no_word_of_best none)⟩

/-- The first piece of a text, and the pieces of what is left. -/
theorem lexemes_eq_cons {cs : List Char} (h : cs ≠ []) :
    ∃ piece, piece.text ≠ [] ∧ Munch cs piece ∧
      lexemes cs = piece :: lexemes (cs.drop piece.text.length) := by
  cases cs with
  | nil => exact absurd rfl h
  | cons c rest =>
      cases first : firstLexeme (c :: rest) with
      | mk n cls =>
          obtain ⟨positive, munch⟩ := firstLexeme_munch first
          obtain ⟨k, rfl⟩ : ∃ k, n = k + 1 := ⟨n - 1, by omega⟩
          refine ⟨_, ?_, munch, ?_⟩
          · simp
          · rw [lexemes, first]
            dsimp only
            rw [List.take_succ_cons]
            congr 2
            rw [List.length_cons, List.drop_succ_cons, Nat.add_sub_cancel, List.length_take]
            rcases Nat.le_total k rest.length with inside | outside
            · rw [Nat.min_eq_left inside]
            · rw [Nat.min_eq_right outside, List.drop_length, List.drop_eq_nil_of_le outside]

/-- The pieces make up the text. -/
theorem flatMap_lexemes (cs : List Char) : (lexemes cs).flatMap Lexeme.text = cs := by
  induction length : cs.length using Nat.strong_induction_on generalizing cs with
  | _ n ih =>
      by_cases none : cs = []
      · subst none
        rw [lexemes]
        rfl
      · obtain ⟨piece, nonempty, munch, eq⟩ := lexemes_eq_cons none
        have shorter : (cs.drop piece.text.length).length < n := by
          have := List.length_pos_iff.mpr nonempty
          have := munch.isStart.length_le
          rw [List.length_drop]
          omega
        rw [eq, List.flatMap_cons, ih _ shorter _ rfl]
        exact List.prefix_iff_eq_append.mp munch.isStart

/-- Every piece is munched from the text that begins with it. -/
theorem munch_of_mem {cs : List Char} {before after : List Lexeme} {piece : Lexeme}
    (h : lexemes cs = before ++ piece :: after) :
    piece.text ≠ [] ∧ Munch (piece.text ++ after.flatMap Lexeme.text) piece := by
  induction before generalizing cs with
  | nil =>
      have none : cs ≠ [] := by
        rintro rfl
        rw [lexemes] at h
        cases h
      obtain ⟨first, nonempty, munch, eq⟩ := lexemes_eq_cons none
      rw [eq] at h
      obtain ⟨rfl, rfl⟩ := List.cons.inj h
      rw [flatMap_lexemes]
      have whole : first.text ++ cs.drop first.text.length = cs :=
        List.prefix_iff_eq_append.mp munch.isStart
      rw [whole]
      exact ⟨nonempty, munch⟩
  | cons other before ih =>
      have none : cs ≠ [] := by
        rintro rfl
        rw [lexemes] at h
        cases h
      obtain ⟨first, _, _, eq⟩ := lexemes_eq_cons none
      rw [eq] at h
      exact ih (List.cons.inj h).2

section Spans

/-- Pieces with the bytes that they take up in the text that they make up. -/
def placed (pieces : List Lexeme) : List (Lexeme × Span) :=
  pieces.zipIdx.map fun (piece, place) =>
    (piece, ⟨byteSize ((pieces.take place).flatMap Lexeme.text),
      byteSize ((pieces.take (place + 1)).flatMap Lexeme.text)⟩)

/-- The token of a piece. -/
def tokenOf : Lexeme × Span → Option Token
  | (⟨_, .token kind⟩, span) => some ⟨kind, span⟩
  | (⟨_, .skipped⟩, _) | (⟨_, .bad⟩, _) => none

/-- The report on a bad piece. -/
def reportOf : Lexeme × Span → Option Diagnostic
  | (⟨text, .bad⟩, span) => some (badLexeme span text)
  | (⟨_, .skipped⟩, _) | (⟨_, .token _⟩, _) => none

theorem byteSize_append (text rest : List Char) :
    byteSize (text ++ rest) = byteSize text + byteSize rest := by
  induction text with
  | nil => simp [byteSize]
  | cons c text ih => rw [List.cons_append, byteSize, byteSize, ih, Nat.add_assoc]

/-- The rest of the pieces, after some. -/
def placedAfter (before pieces : List Lexeme) : List (Lexeme × Span) :=
  pieces.zipIdx.map fun (piece, place) =>
    (piece, ⟨byteSize ((before ++ pieces.take place).flatMap Lexeme.text),
      byteSize ((before ++ pieces.take (place + 1)).flatMap Lexeme.text)⟩)

theorem placedAfter_cons (before pieces : List Lexeme) (piece : Lexeme) :
    placedAfter before (piece :: pieces) =
      (piece, ⟨byteSize (before.flatMap Lexeme.text),
        byteSize (before.flatMap Lexeme.text) + byteSize piece.text⟩) ::
      placedAfter (before ++ [piece]) pieces := by
  have shift : pieces.zipIdx 1 = pieces.zipIdx.map fun (piece, place) => (piece, place + 1) := by
    rw [List.zipIdx_eq_map_add]
    simp [Nat.add_comm]
  simp [placedAfter, List.zipIdx_cons, shift, byteSize_append, byteSize]

/-- Tokens and reports are those of the pieces at their places, by induction on the pieces. -/
theorem tokensFrom_eq (before pieces : List Lexeme) :
    tokensFrom (byteSize (before.flatMap Lexeme.text)) pieces =
      ((placedAfter before pieces).filterMap tokenOf,
        (placedAfter before pieces).filterMap reportOf) := by
  induction pieces generalizing before with
  | nil => rfl
  | cons piece pieces ih =>
      obtain ⟨text, cls⟩ := piece
      have rest := ih (before ++ [⟨text, cls⟩])
      rw [List.flatMap_append, byteSize_append] at rest
      simp only [List.flatMap_singleton] at rest
      rw [tokensFrom, placedAfter_cons, rest]
      cases cls with
      | skipped | token kind | bad => rfl

theorem map_fst_placed (pieces : List Lexeme) : (placed pieces).map Prod.fst = pieces := by
  simp [placed, Function.comp_def]

theorem reports_eq_nil {pieces : List Lexeme} :
    (placed pieces).filterMap reportOf = [] ↔ ∀ piece ∈ pieces, piece.cls ≠ .bad := by
  have unreported (piece : Lexeme) (span : Span) :
      reportOf (piece, span) = none ↔ piece.cls ≠ .bad := by
    obtain ⟨text, cls⟩ := piece
    cases cls <;> simp [reportOf]
  rw [List.filterMap_eq_nil_iff]
  constructor
  · intro none piece mem
    rw [← map_fst_placed pieces, List.mem_map] at mem
    obtain ⟨⟨_, span⟩, at_, rfl⟩ := mem
    exact (unreported _ span).mp (none _ at_)
  · intro good entry mem
    have : entry.1 ∈ pieces := map_fst_placed pieces ▸ List.mem_map_of_mem mem
    exact (unreported entry.1 entry.2).mpr (good _ this)

/-- The tokens of a text, or what is reported on it, from its pieces. -/
theorem tokenize_eq (source : String) :
    tokenize source =
      if ∀ piece ∈ lexemes source.toList, piece.cls ≠ .bad then
        .ok ((placed (lexemes source.toList)).filterMap tokenOf)
      else .error ((placed (lexemes source.toList)).filterMap reportOf) := by
  have whole : tokensFrom 0 (lexemes source.toList) =
      ((placed (lexemes source.toList)).filterMap tokenOf,
        (placed (lexemes source.toList)).filterMap reportOf) := tokensFrom_eq [] _
  unfold tokenize
  rw [whole]
  cases reports : (placed (lexemes source.toList)).filterMap reportOf with
  | nil => exact (if_pos (reports_eq_nil.mp reports)).symm
  | cons report more =>
      have bad := mt reports_eq_nil.mpr (reports ▸ List.cons_ne_nil report more)
      exact (if_neg bad).symm

end Spans

/-- The kind stands for some text that a pattern takes. -/
def TokenKind.IsRead (kind : TokenKind) : Prop :=
  ∃ (p : Pattern) (rest text : List Char), p.Takes rest text ∧ p.Denotes text (.token kind)

theorem isRead_of_mem {source : String} {tokens : List Token} {t : Token}
    (h : tokenize source = .ok tokens) (mem : t ∈ tokens) : t.kind.IsRead := by
  rw [tokenize_eq] at h
  split at h
  · cases h
    obtain ⟨⟨piece, span⟩, placedAt, isToken⟩ := List.mem_filterMap.mp mem
    have isPiece : piece ∈ lexemes source.toList := by
      have := List.mem_map_of_mem (f := Prod.fst) placedAt
      rwa [map_fst_placed] at this
    obtain ⟨before, after, split⟩ := List.append_of_mem isPiece
    obtain ⟨_, munch⟩ := munch_of_mem split
    cases munch with
    | @taken p text cls takes denotes =>
        cases cls with
        | skipped | bad => cases isToken
        | token kind =>
            cases isToken
            exact ⟨p, _, text, takes, denotes⟩
    | stray => cases isToken
  · cases h

/-- A text is cut into pieces that are not empty and cover it, by maximal munch: each is the word
that a pattern takes, the longest of all, and stands for what this pattern says, or it is stray.
Never do two patterns take the same piece. A piece is bad exactly where no pattern has a word, or
where an integer is taken that is too large. The tokens of the pieces are returned in order, or
else there is one report for each bad piece, in order and at its place. -/
theorem tokenize_by_maximal_munch (source : String) :
    (lexemes source.toList).flatMap Lexeme.text = source.toList ∧
    (∀ before piece after, lexemes source.toList = before ++ piece :: after →
      piece.text ≠ [] ∧ Munch (piece.text ++ after.flatMap Lexeme.text) piece ∧
      (piece.cls = .bad ↔
        (∀ (p : Pattern) n,
          Starts p.language (piece.text ++ after.flatMap Lexeme.text) n → n = 0) ∨
        Pattern.Takes .integer (piece.text ++ after.flatMap Lexeme.text) piece.text ∧
          ∃ value, Numeral piece.text value ∧ maxInteger < value)) ∧
    (∀ (p q : Pattern) rest text, p.Takes rest text → q.Takes rest text → p = q) ∧
    tokenize source =
      if ∀ piece ∈ lexemes source.toList, piece.cls ≠ .bad then
        .ok ((placed (lexemes source.toList)).filterMap tokenOf)
      else .error ((placed (lexemes source.toList)).filterMap reportOf) := by
  refine ⟨flatMap_lexemes _, ?_, fun p q rest text => Pattern.Takes.unique, tokenize_eq source⟩
  intro before piece after h
  obtain ⟨nonempty, munch⟩ := munch_of_mem h
  exact ⟨nonempty, munch, munch.bad_iff nonempty⟩

end OpSelect
