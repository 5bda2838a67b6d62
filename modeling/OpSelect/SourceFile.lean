import OpSelect.Span

/-!
Named source texts and the line and column of a byte offset. A line ends at a
newline and nowhere else; the newline belongs to the line that it ends.
-/

namespace OpSelect

structure SourceFile where
  name : String
  text : String
deriving DecidableEq, Repr, Inhabited

/-- Line and column, the column counted in bytes. Both begin with one. -/
structure Position where
  line : Nat
  column : UInt64
deriving DecidableEq, Repr

namespace SourceFile

/-- The offsets just after each newline of text that begins at `offset`. -/
def startsAfterNewlines (offset : Nat) : List Char → List Nat
  | [] => []
  | c :: cs =>
      let next := offset + c.utf8Size
      if c = '\n' then next :: startsAfterNewlines next cs else startsAfterNewlines next cs

/-- The offsets at which the lines begin, the first line always at zero. -/
def lineStarts (file : SourceFile) : List Nat := 0 :: startsAfterNewlines 0 file.text.toList

/-- The last line that begins at or before the offset holds it. An offset past the
end of the text counts as lying on the last line. Offsets have 64 bits, and so do columns. -/
def lineCol (file : SourceFile) (offset : UInt64) : Position :=
  let reached := file.lineStarts.takeWhile (· ≤ offset.toNat)
  ⟨reached.length, .ofNat (offset.toNat - reached.getLastD 0) + 1⟩

end SourceFile

/-- Source texts in the order in which they were added; a file is named by its index. -/
structure SourceMap where
  files : List SourceFile := []
deriving DecidableEq, Repr, Inhabited

namespace SourceMap

def add (map : SourceMap) (file : SourceFile) : SourceMap := ⟨map.files ++ [file]⟩

def locate? (map : SourceMap) (file : Nat) (offset : UInt64) : Option (String × Position) :=
  map.files[file]?.map fun source => (source.name, source.lineCol offset)

end SourceMap
end OpSelect
