import OpSelect.ObjectText.Scalar

/-!
Lists, records and whole object texts. A reader knows the type of what it reads; values that
mean nothing to it are recognised and passed over.
-/

namespace OpSelect.ObjectText

/-- Whether a record's fields follow an opening bracket, and not a tuple's items. -/
def startsField (cs : List Char) : Option Bool := do
  match readName (← skipBlank cs) with
  | none => return false
  | some (_, rest) => return (← skipBlank rest).head? == some ':'

/-- A field's name and its value. -/
def skipField (value : List Char → Option (Unit × List Char)) (cs : List Char) :
    Option (Unit × List Char) := do
  let (_, rest) ← readName cs
  value (← expect ":" (← skipBlank rest))

/-- A key of a map and its value. -/
def skipPair (value : List Char → Option (Unit × List Char)) (cs : List Char) :
    Option (Unit × List Char) := do
  let (_, rest) ← value cs
  value (← expect ":" (← skipBlank rest))

/-- A record or tuple after its opening bracket. -/
def skipBracketed (value : List Char → Option (Unit × List Char)) (cs : List Char) :
    Option (Unit × List Char) := do
  if ← startsField cs then readInside (fun _ => skipField value) ')' () cs
  else readInside (fun _ => value) ')' () cs

/-- The value of an optional one after its word, in brackets or, where the text asks for it,
without them. -/
def skipPayload (extensions : Extensions) (value : List Char → Option (Unit × List Char))
    (cs : List Char) : Option (Unit × List Char) := do
  match ← skipBlank cs with
  | '(' :: inside =>
      let (_, rest) ← value (← skipBlank inside)
      match ← skipBlank rest with
      | ',' :: rest => return ((), ← expect ")" (← skipBlank rest))
      | rest => return ((), ← expect ")" rest)
  | bare => if extensions.implicitSome then value bare else none

/-- The words that are values by themselves. -/
def closedWords : List String := ["true", "false", "None", "inf", "NaN"]

/-- A value that does not begin with a name. What stands in its brackets is read by `item`,
which is missing where none may be opened. -/
def skipUnnamed (item : Option (List Char → Option (Unit × List Char))) (cs : List Char) :
    Option (Unit × List Char) :=
  match cs with
  | '(' :: ')' :: rest => some ((), rest)
  | '(' :: inside => do skipBracketed (← item) inside
  | '[' :: inside => do
      let item ← item
      readInside (fun _ => item) ']' () inside
  | '\x7b' :: inside => do
      let item ← item
      readInside (fun _ => skipPair item) '\x7d' () inside
  | '\'' :: _ => (readChar cs).map fun (_, rest) => ((), rest)
  | '"' :: _ => (readString cs).map fun (_, rest) => ((), rest)
  | 'r' :: _ => (readString cs).map fun (_, rest) => ((), rest)
  | _ => readNumber cs

/-- A value of any kind. The value of an optional one is read by `payload`. -/
def skipValue (extensions : Extensions) (payload : List Char → Option (Unit × List Char))
    (item : Option (List Char → Option (Unit × List Char))) (cs : List Char) :
    Option (Unit × List Char) :=
  if let some rest := closedWords.findSome? fun word => afterWord word cs then some ((), rest)
  else if let some rest := afterWord "Some" cs then skipPayload extensions payload rest
  else if let some (_, rest) := readName cs then do
    match ← skipBlank rest with
    | '(' :: inside => skipBracketed (← item) inside
    | rest => return ((), rest)
  else skipUnnamed item cs

namespace Reader

/-- Passes over a value. An optional value takes one level, and other brackets take one for
themselves and one for each thing in them. -/
def anything : Reader Unit
  | extensions, 0 => skipValue extensions (fun _ => none) none
  | extensions, 1 => skipValue extensions (anything extensions 0) (some fun _ => none)
  | extensions, depth + 2 =>
      skipValue extensions (anything extensions (depth + 1)) (some (anything extensions depth))

def list {α : Type} (item : Reader α) : Reader (List α)
  | extensions, depth + 1, '[' :: cs => do
      let one := fun (items : List α) cs =>
        (item.nested extensions depth cs).map fun (value, rest) => (value :: items, rest)
      let (items, rest) ← readInside one ']' [] cs
      return (items.reverse, rest)
  | _, _, _ => none

/-- The text after the name of a record's type, which may be left out. -/
def skipType (type : String) (cs : List Char) : Option (List Char) :=
  match readName cs with
  | some (name, rest) => if name = type then skipBlank rest else none
  | none => some cs

/-- A record of a type. Each field is read by its name, next to what was read of the record
before it. -/
def record {σ : Type} (type : String) (field : String → σ → Reader σ) (start : σ) :
    Reader σ := fun extensions depth cs => do
  match depth, ← skipType type cs with
  | depth + 1, '(' :: cs =>
      let one := fun read cs => do
        let (name, rest) ← readName cs
        let rest ← expect ":" (← skipBlank rest)
        (field name read).nested extensions depth rest
      readInside one ')' start cs
  | _, _ => none

/-- A field that may be written once. -/
def once {α : Type} (slot : Option α) (reader : Reader α) : Reader α :=
  if slot.isSome then refuse else reader

end Reader

/-- Switches an extension on by its name. Two of them concern types that are not read here. -/
def Extensions.enable? (extensions : Extensions) : String → Option Extensions
  | "implicit_some" => some { extensions with implicitSome := true }
  | "unwrap_newtypes" => some extensions
  | "unwrap_variant_newtypes" => some extensions
  | _ => none

/-- The attributes before the value, each with at least one extension. The fuel bounds their
number. -/
def readAttributes : Nat → Extensions → List Char → Option (Extensions × List Char)
  | 0, extensions, cs => some (extensions, cs)
  | fuel + 1, extensions, cs =>
      if cs.head? = some '#' then do
        let inside ← ["#", "!", "[", "enable", "("].foldlM (fun cs piece => expect piece cs) cs
        let one := fun (read : Option Extensions) cs => do
          let (name, rest) ← readName cs
          return (some (← (read.getD extensions).enable? name), rest)
        let (read, rest) ← readInside one ')' none inside
        readAttributes fuel (← read) (← expect "]" (← skipBlank rest))
      else some (extensions, cs)

/-- The one value that the whole text spells. -/
def Reader.read {α : Type} (reader : Reader α) (source : String) : Option α := do
  let cs ← skipBlank source.toList
  let (extensions, cs) ← readAttributes cs.length {} cs
  let (value, rest) ← reader extensions depthLimit cs
  if (← skipBlank rest).isEmpty then some value else none

end OpSelect.ObjectText
