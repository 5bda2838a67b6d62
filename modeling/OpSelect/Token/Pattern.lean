import OpSelect.Token.Basic

/-!
The lexical patterns of intermediate code. `Pattern.longest` gives, for each of
them, the length of the longest start of a text that it matches. Tokens and the
two kinds of skipped text are both described this way, so that the scanner can
compare them.
-/

namespace OpSelect

/-- A text's first characters up to the first one outside the class. -/
def runLength (p : Char → Bool) (cs : List Char) : Nat := (cs.takeWhile p).length

def isWordStart (c : Char) : Bool := c.isAlpha || c == '_'

def isWordChar (c : Char) : Bool := c.isAlphanum || c == '_'

def isHexDigit (c : Char) : Bool :=
  c.isDigit || ('a' ≤ c && c ≤ 'f') || ('A' ≤ c && c ≤ 'F')

def isBit (c : Char) : Bool := c == '0' || c == '1'

/-- The letters that name a register set. -/
def isRegisterLetter (c : Char) : Bool := c == 'I' || c == 'N' || c == 'S' || c == 'P'

/-- Blanks between tokens. A newline is a token of its own. -/
def isLayout (c : Char) : Bool := c == ' ' || c == '\t' || c == '\r' || c == '\x0c'

inductive Pattern where
  | mark (m : Mark)
  | newline
  | directive
  | string
  | float
  | integer
  | register
  | word
  | layout
  | comment
deriving DecidableEq, Repr

namespace Pattern

/-- Where a string's closing quote stands, counted after the opening one. A
backslash takes the next character with it, which must not be a newline. -/
def closingQuote : List Char → Option Nat
  | [] => none
  | c :: cs =>
      if c = '"' then some 1
      else if c = '\\' then
        match cs with
        | [] => none
        | d :: ds => if d = '\n' then none else (closingQuote ds).map (· + 2)
      else (closingQuote cs).map (· + 1)

def afterWordStart : List Char → Nat
  | c :: cs => if isWordStart c then 1 + runLength isWordChar cs else 0
  | [] => 0

/-- The optional exponent of a float; nothing if no digit follows its mark and sign. -/
def exponent : List Char → Nat
  | c :: cs =>
      if c = 'e' ∨ c = 'E' then
        let sign := match cs with
          | d :: _ => if d = '+' ∨ d = '-' then 1 else 0
          | [] => 0
        let digits := runLength Char.isDigit (cs.drop sign)
        if digits = 0 then 0 else 1 + sign + digits
      else 0
  | [] => 0

/-- Digits, a point, digits and an optional exponent. -/
def floatLength (cs : List Char) : Nat :=
  let whole := runLength Char.isDigit cs
  if whole = 0 then 0
  else match cs.drop whole with
    | '.' :: rest =>
        let fraction := runLength Char.isDigit rest
        if fraction = 0 then 0
        else whole + 1 + fraction + exponent (rest.drop fraction)
    | _ => 0

/-- Decimal digits, or digits after `0x` or `0b`. A bare `0x` is the numeral `0`. -/
def integerLength : List Char → Nat
  | '0' :: 'x' :: rest =>
      let digits := runLength isHexDigit rest
      if digits = 0 then 1 else 2 + digits
  | '0' :: 'b' :: rest =>
      let digits := runLength isBit rest
      if digits = 0 then 1 else 2 + digits
  | cs => runLength Char.isDigit cs

/-- The length of the longest start of the text that the pattern matches, zero if
it matches none. -/
def longest : Pattern → List Char → Nat
  | mark m, cs => if m.text.toList.isPrefixOf cs then m.text.length else 0
  | newline, cs => runLength (· == '\n') cs
  | directive, '.' :: cs =>
      let name := afterWordStart cs
      if name = 0 then 0 else 1 + name
  | string, '"' :: cs =>
      match closingQuote cs with
      | some n => 1 + n
      | none => 0
  | float, cs => floatLength cs
  | integer, cs => integerLength cs
  | register, '$' :: c :: cs =>
      if isRegisterLetter c then
        let digits := runLength Char.isDigit cs
        if digits = 0 then 0 else 2 + digits
      else 0
  | word, cs => afterWordStart cs
  | layout, cs => runLength isLayout cs
  | comment, '#' :: cs => 1 + runLength (fun c => c != '\r' && c != '\n') cs
  | _, _ => 0

/-- Every pattern, the marks first: at equal length a keyword beats a word. -/
def all : List Pattern :=
  Mark.all.map mark ++
    [newline, directive, string, float, integer, register, word, layout, comment]

end Pattern
end OpSelect
