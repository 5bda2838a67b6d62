import OpSelect.ObjectText.Basic

/-!
Numbers, strings, characters and words of object texts.
-/

namespace OpSelect.ObjectText

def hexValue? (c : Char) : Option Nat :=
  if c.isDigit then some (c.toNat - '0'.toNat)
  else if 'a' ≤ c ∧ c ≤ 'f' then some (c.toNat - 'a'.toNat + 10)
  else if 'A' ≤ c ∧ c ≤ 'F' then some (c.toNat - 'A'.toNat + 10)
  else none

/-- The value of digits in the base, with underscores left out. -/
def digitsValue? (base : Nat) (digits : List Char) : Option Nat :=
  (digits.filter (· != '_')).foldlM (fun value c => do
    let digit ← hexValue? c
    if digit < base then some (value * base + digit) else none) 0

/-- The digits of an integer, after its sign and the mark of its base. -/
def readDigits (base : Nat) (cs : List Char) : Option (Nat × List Char) := do
  let digits := cs.takeWhile fun c => (hexValue? c).isSome || c == '_'
  match digits with
  | [] => none
  | c :: _ =>
      if c = '_' then none
      else return (← digitsValue? base digits, cs.drop digits.length)

def readMagnitude : List Char → Option (Nat × List Char)
  | '0' :: 'x' :: cs => readDigits 16 cs
  | '0' :: 'b' :: cs => readDigits 2 cs
  | '0' :: 'o' :: cs => readDigits 8 cs
  | cs => readDigits 10 cs

/-- Whether the text is an unsigned decimal fraction with an optional exponent. -/
def isFraction (cs : List Char) : Bool :=
  let whole := cs.takeWhile Char.isDigit
  let rest := cs.drop whole.length
  let (fraction, rest) := match rest with
    | '.' :: rest =>
        let digits := rest.takeWhile Char.isDigit
        (digits, rest.drop digits.length)
    | rest => ([], rest)
  let exponent := match rest with
    | [] => true
    | c :: rest =>
        let digits := match rest with
          | '+' :: digits => digits
          | '-' :: digits => digits
          | digits => digits
        (c == 'e' || c == 'E') && !digits.isEmpty && digits.all Char.isDigit
  !(whole.isEmpty && fraction.isEmpty) && exponent

/-- An integer of an unsigned word of 64 bits, written without a sign. -/
def readUnsigned (cs : List Char) : Option (Nat × List Char) := do
  let (magnitude, rest) ← readMagnitude cs
  if magnitude ≤ 18446744073709551615 then some (magnitude, rest) else none

/-- An integer of a signed word of 64 bits. -/
def readSigned (cs : List Char) : Option (Int × List Char) := do
  let (value, rest) ← match cs with
    | '-' :: cs => (readMagnitude cs).map fun (n, rest) => (-(n : Int), rest)
    | '+' :: cs => (readMagnitude cs).map fun (n, rest) => ((n : Int), rest)
    | cs => (readMagnitude cs).map fun (n, rest) => ((n : Int), rest)
  if -9223372036854775808 ≤ value ∧ value ≤ 9223372036854775807 then some (value, rest) else none

def isSign (c : Char) : Bool := c == '+' || c == '-'

/-- The text after a sign, if it has one. -/
def dropSign : List Char → List Char
  | [] => []
  | c :: cs => if isSign c then cs else c :: cs

def isFractionChar (c : Char) : Bool :=
  c.isDigit || isSign c || c == 'e' || c == 'E' || c == '.' || c == '_'

def isIntegerChar (c : Char) : Bool := (hexValue? c).isSome || c == '_'

/-- A fraction with or without a sign: infinity, no number, or all the characters of
fractions that follow. -/
def readFraction (cs : List Char) : Option (Unit × List Char) :=
  match ["inf", "NaN"].findSome? fun word => afterWord word (dropSign cs) with
  | some rest => some ((), rest)
  | none =>
      let digits := cs.takeWhile isFractionChar
      if isFraction (dropSign digits) then some ((), cs.drop digits.length) else none

/-- A number of any kind: an integer of a word, unless it goes on with characters of
fractions only, and else a fraction. -/
def readNumber (cs : List Char) : Option (Unit × List Char) :=
  let body := dropSign cs
  let integer : Option (Unit × List Char) :=
    if cs.head?.any isSign then (readSigned cs).map fun (_, rest) => ((), rest)
    else (readUnsigned cs).map fun (_, rest) => ((), rest)
  if (body.takeWhile isIntegerChar).length < (body.takeWhile isFractionChar).length then
    readFraction cs
  else integer <|> readFraction cs

/-- The character that an escape stands for, read after its backslash. -/
def readEscape : List Char → Option (Char × List Char)
  | '\'' :: cs => some ('\'', cs)
  | '"' :: cs => some ('"', cs)
  | '\\' :: cs => some ('\\', cs)
  | 'n' :: cs => some ('\n', cs)
  | 'r' :: cs => some ('\r', cs)
  | 't' :: cs => some ('\t', cs)
  | '0' :: cs => some ('\x00', cs)
  | 'x' :: a :: b :: cs => do return (Char.ofNat ((← hexValue? a) * 16 + (← hexValue? b)), cs)
  | 'u' :: '\x7b' :: cs => do
      let digits := cs.takeWhile fun c => (hexValue? c).isSome
      let code ← digitsValue? 16 digits
      if digits.isEmpty ∨ 6 < digits.length then none
      else if h : code.isValidChar then
        match cs.drop digits.length with
        | '\x7d' :: rest => some (Char.ofNatAux code h, rest)
        | _ => none
      else none
  | _ => none

/-- The rest of a quoted string, up to and with its closing quote. The fuel bounds the
number of characters. -/
def readQuoted : Nat → List Char → Option (List Char × List Char)
  | 0, _ => none
  | _ + 1, '"' :: cs => some ([], cs)
  | fuel + 1, '\\' :: cs => do
      let (c, cs) ← readEscape cs
      let (text, rest) ← readQuoted fuel cs
      return (c :: text, rest)
  | fuel + 1, c :: cs => do
      let (text, rest) ← readQuoted fuel cs
      return (c :: text, rest)
  | _ + 1, [] => none

/-- The rest of a raw string, which ends in this text. -/
def readRaw (ending : List Char) : List Char → Option (List Char × List Char)
  | [] => none
  | c :: cs =>
      if ending.isPrefixOf (c :: cs) then some ([], (c :: cs).drop ending.length)
      else (readRaw ending cs).map fun (text, rest) => (c :: text, rest)

/-- A string, raw or quoted. -/
def readString : List Char → Option (String × List Char)
  | '"' :: cs => do
      let (text, rest) ← readQuoted (cs.length + 1) cs
      return (String.ofList text, rest)
  | 'r' :: cs =>
      let hashes := cs.takeWhile (· == '#')
      match cs.drop hashes.length with
      | '"' :: body => do
          let (text, rest) ← readRaw ('"' :: hashes) body
          return (String.ofList text, rest)
      | _ => none
  | _ => none

/-- A single quoted character. A quote has to be escaped. -/
def readChar : List Char → Option (Char × List Char)
  | '\'' :: '\\' :: cs => do
      match ← readEscape cs with
      | (c, '\'' :: rest) => return (c, rest)
      | _ => none
  | '\'' :: c :: '\'' :: rest => if c = '\'' then none else some (c, rest)
  | _ => none

namespace Reader

def unsigned : Reader Nat := fun _ _ => readUnsigned

def signed : Reader Int := fun _ _ => readSigned

def text : Reader String := fun _ _ => readString

def boolean : Reader Bool := fun _ _ cs =>
  ((afterWord "true" cs).map fun rest => (true, rest)) <|>
    ((afterWord "false" cs).map fun rest => (false, rest))

/-- One of several words, by its meaning. -/
def word {α : Type} (meaning : String → Option α) : Reader α := fun _ _ cs => do
  let (name, rest) ← readName cs
  return (← meaning name, rest)

end Reader
end OpSelect.ObjectText
