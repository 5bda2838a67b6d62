import OpSelect.Diagnostic.Basic
import OpSelect.Text.Escape
import OpSelect.Token.Pattern

/-!
Splitting a source text into lexemes. At every place the longest match of any
pattern is taken. Where none matches, the text that could still have become a
token is set aside as one bad lexeme, and splitting goes on after it.
-/

namespace OpSelect

/-- What a piece of the text turned out to be. -/
inductive LexemeClass where
  | skipped
  | token (kind : TokenKind)
  | bad
deriving DecidableEq, Repr

structure Lexeme where
  text : List Char
  cls : LexemeClass
deriving DecidableEq, Repr

/-- The value of a digit in any base up to sixteen. -/
def digitValue (c : Char) : Nat :=
  if c.isDigit then c.toNat - '0'.toNat
  else if 'a' ≤ c ∧ c ≤ 'f' then c.toNat - 'a'.toNat + 10
  else c.toNat - 'A'.toNat + 10

def numeralValue (base : Nat) (digits : List Char) : Nat :=
  digits.foldl (fun value c => value * base + digitValue c) 0

/-- The number that an integer literal denotes. -/
def integerValue : List Char → Nat
  | '0' :: 'x' :: digits => numeralValue 16 digits
  | '0' :: 'b' :: digits => numeralValue 2 digits
  | digits => numeralValue 10 digits

/-- The largest integer literal, the largest number of a signed word of 64 bits. -/
def maxInteger : Nat := 9223372036854775807

/-- The text of a string literal's inside, with its escapes resolved. An escaped
character without a meaning of its own stands for itself. -/
def unescape : List Char → List Char
  | [] => []
  | '\\' :: c :: cs =>
      (if c = 'n' then '\n'
        else if c = 'r' then '\r'
        else if c = 't' then '\t'
        else if c = '0' then '\x00'
        else c) :: unescape cs
  | c :: cs => if c = '\\' then unescape cs else c :: unescape cs

namespace Pattern

/-- What the text matched by the pattern stands for. An integer that does not fit
the machine's words is bad. -/
def classify : Pattern → List Char → LexemeClass
  | mark m, _ => .token (.mark m)
  | newline, _ => .token .newline
  | directive, text => .token (.directive (String.ofList (text.drop 1)))
  | string, text => .token (.string (String.ofList (unescape (text.drop 1).dropLast)))
  | float, text => .token (.float (String.ofList text))
  | integer, text =>
      let value := integerValue text
      if value ≤ maxInteger then .token (.integer value) else .bad
  | register, text => .token (.register (String.ofList text))
  | word, text => .token (.word (String.ofList text))
  | layout, _ => .skipped
  | comment, _ => .skipped

/-- The pattern with the longest match and that length; the earlier pattern wins a
tie, and a match of no characters is none. -/
def best (cs : List Char) : Option (Pattern × Nat) :=
  all.foldl (fun found p =>
    let n := p.longest cs
    match found with
    | none => if n = 0 then none else some (p, n)
    | some (_, m) => if m < n then some (p, n) else found) none

end Pattern

/-- How much of an unclosed string's inside could still be followed by its end:
everything, or all up to a backslash that stands before a newline. -/
def openStringLength : List Char → Nat
  | [] => 0
  | c :: cs =>
      if c = '\\' then
        match cs with
        | [] => 1
        | d :: ds => if d = '\n' then 1 else 2 + openStringLength ds
      else 1 + openStringLength cs

/-- The length of the bad lexeme at a place where no pattern matches. -/
def badLength : List Char → Nat
  | '"' :: cs => 1 + openStringLength cs
  | '$' :: c :: _ => if isRegisterLetter c then 2 else 1
  | _ => 1

/-- The length and class of the text's first lexeme. -/
def firstLexeme (cs : List Char) : Nat × LexemeClass :=
  match Pattern.best cs with
  | some (p, n) => (n, p.classify (cs.take n))
  | none => (badLength cs, .bad)

/-- Splits the text. A lexeme is cut at one character at least, which is never
needed: every match is longer than zero. -/
def lexemes (cs : List Char) : List Lexeme :=
  match cs with
  | [] => []
  | c :: rest =>
      let (n, cls) := firstLexeme (c :: rest)
      ⟨c :: rest.take (n - 1), cls⟩ :: lexemes (rest.drop (n - 1))
termination_by cs.length
decreasing_by
  simp only [List.length_drop, List.length_cons]
  omega

/-- The diagnostic for a bad lexeme. -/
def badLexeme (span : Span) (text : List Char) : Diagnostic :=
  (Diagnostic.error span s!"unexpected token '{Text.escape (String.ofList text)}'").withHelp
    "remove or fix this token"

/-- The tokens of a run of lexemes that begins at `offset`, and the diagnostics for
the bad ones, both in order. -/
def tokensFrom (offset : Nat) : List Lexeme → List Token × List Diagnostic
  | [] => ([], [])
  | ⟨text, cls⟩ :: rest =>
      let stop := offset + byteSize text
      let (tokens, diagnostics) := tokensFrom stop rest
      match cls with
      | .skipped => (tokens, diagnostics)
      | .token kind => (⟨kind, ⟨offset, stop⟩⟩ :: tokens, diagnostics)
      | .bad => (tokens, badLexeme ⟨offset, stop⟩ text :: diagnostics)

/-- All tokens of the text, or all its lexical errors. -/
def tokenize (source : String) : Except (List Diagnostic) (List Token) :=
  match tokensFrom 0 (lexemes source.toList) with
  | (tokens, []) => .ok tokens
  | (_, diagnostics) => .error diagnostics

end OpSelect
