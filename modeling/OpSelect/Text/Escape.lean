/-!
The escaped spelling of text: what a string constant looks like in a listing and
what a stray character looks like in a message. The result is printable ASCII.
-/

namespace OpSelect.Text

/-- The character's code in lowercase hexadecimal, without leading zeros. -/
def hexCode (c : Char) : List Char := Nat.toDigits 16 c.toNat

/-- Quotes, backslash and the three layout characters have two-character escapes.
The rest of printable ASCII stands for itself, and any other character is written
by its code. -/
def escapeChar (c : Char) : List Char :=
  if c = '\t' then ['\\', 't']
  else if c = '\r' then ['\\', 'r']
  else if c = '\n' then ['\\', 'n']
  else if c = '\'' ∨ c = '"' ∨ c = '\\' then ['\\', c]
  else if ' ' ≤ c ∧ c ≤ '~' then [c]
  else ['\\', 'u', '\x7b'] ++ hexCode c ++ ['\x7d']

def escape (s : String) : String := String.ofList (s.toList.flatMap escapeChar)

end OpSelect.Text
