import OpSelect.Diagnostic.Basic
import OpSelect.Token.Basic

/-!
What the reader of statements reports when a line is no statement. Every attempt
that fails leaves a miss; the misses furthest into the text make up the complaint,
since what was tried last says best what was meant.
-/

namespace OpSelect

/-- What an attempt was looking for. Choices among several tokens have no name. -/
inductive Expectation where
  | token (kind : TokenKind)
  | unnamed
  | endOfInput
deriving DecidableEq, Repr

def Expectation.describe : Expectation → String
  | token kind => kind.describe
  | unnamed => "something else"
  | endOfInput => "end of input"

/-- An attempt that failed: the place, the token found there and the one expected. -/
structure Miss where
  span : Span
  found : Option TokenKind
  expected : Expectation
deriving DecidableEq, Repr

/-- All expectations that failed at one place, in the order of the attempts. -/
structure Complaint where
  span : Span
  found : Option TokenKind
  expected : List Expectation
deriving DecidableEq, Repr

namespace Complaint

/-- Takes a miss into account: one further on replaces the complaint, one at the
same place adds its expectation once, and one further back is ignored. -/
def note (c : Option Complaint) (m : Miss) : Option Complaint :=
  match c with
  | none => some ⟨m.span, m.found, [m.expected]⟩
  | some c =>
      if c.span.start < m.span.start then some ⟨m.span, m.found, [m.expected]⟩
      else if m.span.start < c.span.start then some c
      else if m.expected ∈ c.expected then some c
      else some { c with expected := c.expected ++ [m.expected] }

def noteAll (c : Option Complaint) (misses : List Miss) : Option Complaint :=
  misses.foldl note c

/-- An enumeration with `or` before its last item. -/
def enumerate : List String → String
  | [] => "something else"
  | [single] => single
  | [first, second] => s!"{first} or {second}"
  | items => String.intercalate ", " items.dropLast ++ ", or " ++ items.getLastD ""

/-- The longest enumeration of expectations, in bytes, that a message holds. -/
def longestEnumeration : Nat := 80

/-- At a newline the diagnostic points to the end of the line and covers nothing. -/
def diagnostic (c : Complaint) : Diagnostic :=
  let span := if c.found = some .newline then ⟨c.span.start, c.span.start⟩ else c.span
  let expected := enumerate (c.expected.map Expectation.describe)
  let found := match c.found with
    | some kind => kind.describe
    | none => "end of input"
  if expected.utf8ByteSize > longestEnumeration then
    .error span s!"invalid syntax: unexpected {found}"
  else
    .error span s!"invalid syntax: expected {expected}, found {found}"

end Complaint
end OpSelect
