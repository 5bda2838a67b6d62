import OpSelect.CodeUnit

/-!
Instruction records as indented JSON: two spaces a level, one item or field a line, and
empty lists closed at once.
-/

namespace OpSelect

inductive Json where
  | null
  | bool (value : Bool)
  | number (value : Nat)
  | string (value : String)
  | array (items : List Json)
  | object (fields : List (String × Json))
deriving Repr

namespace Json

/-- Quotes, backslashes and control characters are escaped, nothing else. -/
def escapeChar (c : Char) : List Char :=
  if c = '"' ∨ c = '\\' then ['\\', c]
  else if c = '\n' then ['\\', 'n']
  else if c = '\r' then ['\\', 'r']
  else if c = '\t' then ['\\', 't']
  else if c = '\x08' then ['\\', 'b']
  else if c = '\x0c' then ['\\', 'f']
  else if c < ' ' then ['\\', 'u', '0', '0', (c.toNat / 16).digitChar, (c.toNat % 16).digitChar]
  else [c]

def quote (s : String) : String := "\"" ++ String.ofList (s.toList.flatMap escapeChar) ++ "\""

/-- A line break and the indentation of the next line. -/
def newline (level : Nat) : String := "\n" ++ String.ofList (List.replicate (2 * level) ' ')

/-- Items between brackets, each on its own line. -/
def bracket (opening closing : String) (level : Nat) : List String → String
  | [] => opening ++ closing
  | items =>
      opening ++ newline (level + 1) ++ String.intercalate ("," ++ newline (level + 1)) items ++
        newline level ++ closing

mutual

/-- A value whose first line is already indented to the level. -/
def pretty (level : Nat) : Json → String
  | null => "null"
  | bool value => if value then "true" else "false"
  | number value => toString value
  | string value => quote value
  | array items => bracket "[" "]" level (prettyItems (level + 1) items)
  | object fields => bracket "\x7b" "\x7d" level (prettyFields (level + 1) fields)

def prettyItems (level : Nat) : List Json → List String
  | [] => []
  | item :: items => pretty level item :: prettyItems level items

def prettyFields (level : Nat) : List (String × Json) → List String
  | [] => []
  | (name, value) :: fields =>
      (quote name ++ ": " ++ pretty level value) :: prettyFields level fields

end

end Json

def InstructionKind.toJson : InstructionKind → Json
  | plain => .object [("type", .string "plain")]
  | label => .object [("type", .string "label")]
  | branch target unconditional =>
      .object [("type", .string "branch"), ("target_arg", .number target),
        ("unconditional", .bool unconditional)]
  | addressTaking target =>
      .object [("type", .string "address_taking"), ("target_arg", .number target)]
  | registerAlias => .object [("type", .string "register_alias")]

def InstructionRecord.toJson (r : InstructionRecord) : Json :=
  let positions (ps : List Nat) : Json := .array (ps.map .number)
  .object [("text", .string r.text), ("full_name", .string r.fullName),
    ("opcode", match r.opcode with | some n => .number n | none => .null),
    ("kind", r.kind.toJson), ("keyed", positions r.keyed), ("ins", positions r.ins),
    ("outs", positions r.outs), ("in_outs", positions r.inOuts)]

/-- The records of a unit, as they are written out. -/
def CodeUnit.toJsonText (u : CodeUnit) : String :=
  (Json.array (u.records.map InstructionRecord.toJson)).pretty 0 ++ "\n"

end OpSelect
