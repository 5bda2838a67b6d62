/-!
Byte ranges of a source text, and syntax nodes that remember theirs.
-/

namespace OpSelect

/-- A range of byte offsets: `start` is the first byte, `stop` the one after the last. -/
structure Span where
  start : Nat
  stop : Nat
deriving DecidableEq, Repr, Inhabited

structure Located (α : Type) where
  node : α
  span : Span
deriving DecidableEq, Repr, Inhabited

/-- The number of bytes that the characters take in UTF-8. -/
def byteSize : List Char → Nat
  | [] => 0
  | c :: cs => c.utf8Size + byteSize cs

end OpSelect
