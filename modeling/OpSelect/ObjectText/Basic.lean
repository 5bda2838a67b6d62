/-!
The notation in which settings and catalog extensions are written. Blanks and comments may
stand between any two tokens. What is in brackets is separated by commas and may end in one.
-/

namespace OpSelect.ObjectText

/-- What is left after a nested comment of this depth. -/
def skipBlockComment : Nat → List Char → Option (List Char)
  | 0, cs => some cs
  | _ + 1, [] => none
  | depth + 1, '/' :: '*' :: cs => skipBlockComment (depth + 2) cs
  | depth + 1, '*' :: '/' :: cs => skipBlockComment depth cs
  | depth + 1, _ :: cs => skipBlockComment (depth + 1) cs
termination_by _ cs => cs.length

theorem skipBlockComment_length {depth : Nat} {cs rest : List Char}
    (h : skipBlockComment depth cs = some rest) : rest.length ≤ cs.length := by
  fun_induction skipBlockComment depth cs with
  | case1 => simp_all
  | case2 => simp at h
  | case3 depth cs ih | case4 depth cs ih | case5 depth c cs _ _ ih =>
      have := ih h
      simp only [List.length_cons]
      omega

/-- What is left after blanks and comments. A slash must begin a comment, and a block
comment must end. -/
def skipBlank (cs : List Char) : Option (List Char) :=
  match cs with
  | '/' :: '/' :: rest => skipBlank (rest.dropWhile (· != '\n'))
  | '/' :: '*' :: rest =>
      match h : skipBlockComment 1 rest with
      | none => none
      | some after =>
          have := skipBlockComment_length h
          skipBlank after
  | '/' :: _ => none
  | c :: rest => if c = ' ' ∨ c = '\t' ∨ c = '\n' ∨ c = '\r' then skipBlank rest else some cs
  | [] => some []
termination_by cs.length
decreasing_by
  · have := (List.dropWhile_sublist (l := rest) (· != '\n')).length_le
    simp only [List.length_cons]
    omega
  · simp only [List.length_cons]
    omega
  · simp

/-- Goes past a piece of punctuation and the blanks after it. -/
def expect (piece : String) (cs : List Char) : Option (List Char) :=
  if piece.toList.isPrefixOf cs then skipBlank (cs.drop piece.toList.length) else none

def isNameStart (c : Char) : Bool := c.isAlpha || c == '_'

def isNameChar (c : Char) : Bool := c.isAlphanum || c == '_'

/-- The characters of a name that is written after `r#`. -/
def isRawNameChar (c : Char) : Bool := isNameChar c || c == '.' || c == '+' || c == '-'

/-- A name. One that runs into a character of raw names only is refused. -/
def readName (cs : List Char) : Option (String × List Char) :=
  match cs with
  | 'r' :: '"' :: _ => none
  | 'r' :: '#' :: rest =>
      let name := rest.takeWhile isRawNameChar
      if name.isEmpty then none else some (String.ofList name, rest.drop name.length)
  | c :: _ =>
      let name := cs.takeWhile isNameChar
      if isNameStart c && (cs.takeWhile isRawNameChar).length = name.length then
        some (String.ofList name, cs.drop name.length)
      else none
  | [] => none

/-- What follows a word of the notation, which must not go on as a name. Raw names are never
such words. -/
def afterWord (word : String) (cs : List Char) : Option (List Char) :=
  let rest := cs.drop word.toList.length
  if word.toList.isPrefixOf cs && !rest.head?.any isNameChar then some rest else none

/-- What the attributes of a text ask for. With `implicitSome` the value of an optional one
needs no brackets. -/
structure Extensions where
  implicitSome : Bool := false
deriving DecidableEq, Repr

/-- How deep brackets, and what stands in them, may be nested. -/
def depthLimit : Nat := 128

/-- Reads a value that may be nested this much deeper, and gives what follows it. -/
abbrev Reader (α : Type) := Extensions → Nat → List Char → Option (α × List Char)

namespace Reader

def refuse {α : Type} : Reader α := fun _ _ _ => none

def map {α β : Type} (f : α → β) (reader : Reader α) : Reader β := fun extensions depth cs =>
  (reader extensions depth cs).map fun (value, rest) => (f value, rest)

/-- Refuses what has no meaning. -/
def filterMap {α β : Type} (f : α → Option β) (reader : Reader α) : Reader β :=
  fun extensions depth cs => do
    let (value, rest) ← reader extensions depth cs
    return (← f value, rest)

/-- Reads one level deeper. -/
def nested {α : Type} (reader : Reader α) : Reader α
  | _, 0, _ => none
  | extensions, depth + 1, cs => reader extensions depth cs

end Reader

/-- Items up to the closing bracket, each added to what was read before it. The fuel bounds
their number. -/
def readItems {σ : Type} (item : σ → List Char → Option (σ × List Char)) (close : Char) :
    Nat → σ → List Char → Option (σ × List Char)
  | 0, _, _ => none
  | _ + 1, _, [] => none
  | fuel + 1, read, c :: cs =>
      if c = close then some (read, cs)
      else do
        let (read, rest) ← item read (c :: cs)
        match ← skipBlank rest with
        | ',' :: rest => readItems item close fuel read (← skipBlank rest)
        | d :: rest => if d = close then some (read, rest) else none
        | [] => none

/-- What stands between an opening bracket and its closing one. -/
def readInside {σ : Type} (item : σ → List Char → Option (σ × List Char)) (close : Char)
    (start : σ) (cs : List Char) : Option (σ × List Char) := do
  readItems item close (cs.length + 1) start (← skipBlank cs)

end OpSelect.ObjectText
