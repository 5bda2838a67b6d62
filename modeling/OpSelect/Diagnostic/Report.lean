import OpSelect.Diagnostic.Basic
import OpSelect.SourceFile
import OpSelect.Text.Blank

/-!
Diagnostics as boxed reports. A report shows the lines that the diagnostic speaks of,
each with its spans underlined and a message that hangs from the middle of every span.
-/

namespace OpSelect.Report

/-- A line of the source as reports count them, with the offset of its start in bytes and
in characters. The text includes the line's end. -/
structure Line where
  number : Nat
  start : Nat
  offset : Nat
  text : List Char
deriving DecidableEq, Repr

/-- The characters that end a line in a report. A carriage return and the newline after
it are one end. -/
def isLineEnd (c : Char) : Bool :=
  c == '\r' || c == '\n' || c == '\x0b' || c == '\x0c' || c == '\u0085' ||
    c == '\u2028' || c == '\u2029'

/-- The rest of the first line, its end included, and what follows it. -/
def splitLine : List Char → List Char × List Char
  | [] => ([], [])
  | '\r' :: '\n' :: rest => (['\r', '\n'], rest)
  | c :: rest =>
      if isLineEnd c then ([c], rest)
      else
        let (line, after) := splitLine rest
        (c :: line, after)

theorem splitLine_length (cs : List Char) (h : cs ≠ []) :
    (splitLine cs).2.length < cs.length := by
  fun_induction splitLine cs with
  | case1 => exact absurd rfl h
  | case2 => simp only [List.length_cons]; omega
  | case3 => simp only [List.length_cons]; omega
  | case4 c rest _ _ line after hs ih =>
      cases rest with
      | nil =>
          simp only [splitLine] at hs
          cases hs
          simp
      | cons d rest =>
          have := ih (by simp)
          rw [hs] at this
          simp only [List.length_cons] at *
          omega

/-- The lines of a text. A line end at the very end begins no further line. -/
def linesFrom (number start offset : Nat) (cs : List Char) : List Line :=
  match cs with
  | [] => []
  | c :: rest =>
      let line := (splitLine (c :: rest)).1
      ⟨number, start, offset, line⟩ ::
        linesFrom (number + 1) (start + byteSize line) (offset + line.length)
          (splitLine (c :: rest)).2
termination_by cs.length
decreasing_by exact splitLine_length (c :: rest) (by simp)

def emptyLine : Line := ⟨1, 0, 0, []⟩

def lines (text : String) : List Line :=
  match linesFrom 1 0 0 text.toList with
  | [] => [emptyLine]
  | all => all

/-- The last line that begins at or before a byte. -/
def lineOfByte (all : List Line) (byte : Nat) : Line :=
  (all.takeWhile (·.start ≤ byte)).getLastD emptyLine

/-- The last line that begins at or before a character. -/
def lineOfChar (all : List Line) (index : Nat) : Line :=
  (all.takeWhile (·.offset ≤ index)).getLastD emptyLine

/-- How many of the characters begin before this many bytes. -/
def charsBefore (bytes : Nat) : List Char → Nat
  | [] => 0
  | c :: cs => if bytes = 0 then 0 else 1 + charsBefore (bytes - c.utf8Size) cs

/-- Tab stops stand every four characters. -/
def tabWidth : Nat := 4

/-- The cells that a character takes. A tab runs up to the next tab stop, counted in
characters of the line. -/
def cellWidth (c : Char) (column : Nat) : Nat :=
  if c = '\t' then tabWidth - column % tabWidth else 1

/-- A remark about the characters from one index of the text up to another. -/
structure Mark where
  first : Nat
  last : Nat
  message : String
deriving DecidableEq, Repr

namespace Line

/-- The line without its end and the blanks before that. -/
def shown (l : Line) : List Char := Text.trimEnd l.text

/-- The widths of this many columns, one past the end of what is shown. -/
def widths (l : Line) (columns : Nat) : List Nat :=
  let shown := l.shown
  (shown.take columns).mapIdx (fun column c => cellWidth c column) ++
    List.replicate (columns - shown.length) 1

/-- What is shown, blanks and tabs as spaces. -/
def display (l : Line) : String :=
  String.ofList (l.shown.zipIdx.flatMap fun (c, column) =>
    if Text.isBlank c then List.replicate (cellWidth c column) ' ' else [c])

/-- The column of a byte offset. -/
def columnOf (l : Line) (byte : Nat) : Nat := charsBefore (byte - l.start) l.text

/-- Whether a mark is drawn below the line. An empty mark where one line ends and the next
begins belongs to both. -/
def holds (l : Line) (m : Mark) : Bool :=
  l.offset ≤ m.first && m.last ≤ l.offset + l.text.length

/-- The column that a mark's message hangs from. -/
def hook (l : Line) (m : Mark) : Nat := (m.first + m.last) / 2 - l.offset

/-- Whether a mark underlines the column. -/
def underlines (l : Line) (column : Nat) (m : Mark) : Bool :=
  m.first ≤ l.offset + column && l.offset + column < m.last

/-- A row below the line, with what stands in the first cell of each column and what fills
the others. -/
def row (l : Line) (columns : Nat) (cell : Nat → Char × Char) : String :=
  String.ofList ((l.widths columns).zipIdx.flatMap fun (width, column) =>
    (cell column).1 :: List.replicate (width - 1) (cell column).2)

/-- Bars for the messages still to come, and under the first of them the underlines. -/
def barCell (l : Line) (underlined : Nat → Bool) (pending : List Mark) (column : Nat) :
    Char × Char :=
  if pending.any fun m => l.hook m == column then
    if underlined column then ('┬', '─') else ('│', ' ')
  else if underlined column then ('─', '─') else (' ', ' ')

/-- An arm that reaches from a mark's column to its message. It covers the bars to its
right, and those to its left go on. -/
def armCell (l : Line) (m : Mark) (pending : List Mark) (column : Nat) : Char × Char :=
  if column = l.hook m then ('╰', '─')
  else if l.hook m < column then ('─', '─')
  else if pending.any fun m => l.hook m == column then ('│', ' ')
  else (' ', ' ')

/-- The messages below the line, each on an arm with a row of bars above it. -/
def messages (l : Line) (columns : Nat) (underlined : Nat → Bool) : List Mark → List String
  | [] => []
  | m :: rest =>
      l.row columns (l.barCell underlined (m :: rest)) ::
        (l.row columns (l.armCell m rest) ++ " " ++ m.message) ::
          l.messages columns (fun _ => false) rest

/-- All rows below the line. They reach two columns past the last mark. -/
def annotations (l : Line) (marks : List Mark) : List String :=
  let columns := marks.foldl (fun most m => max most (m.last - l.offset)) 0 + 2
  l.messages columns (fun column => marks.any (l.underlines column)) marks

end Line

/-- Where a remark stands in the text. One that reaches past the end is not shown. -/
def Mark.ofRemark? (all : List Line) (size : Nat) (remark : Remark) : Option Mark :=
  let span := remark.span
  let first := lineOfByte all span.start
  let last := lineOfByte all (span.stop - 1)
  let index := first.offset + first.columnOf span.start
  if size < span.start then none
  else if span.stop ≤ span.start then some ⟨index, index, remark.message⟩
  else if size < span.stop - 1 then none
  else some ⟨index, last.offset + last.columnOf span.stop, remark.message⟩

/-- The lines from the first mark's start up to the last mark's end. -/
def shownLines (all : List Line) (marks : List Mark) : List Line :=
  let last := marks.foldl (fun most m => max most m.last) 0
  let first := marks.foldl (fun least m => min least m.first) last
  let low := (lineOfChar all first).number
  let high := (lineOfChar all (max (last - 1) first)).number
  all.filter fun l => low ≤ l.number && l.number ≤ high

def spaces (n : Nat) : String := String.ofList (List.replicate n ' ')

def dashes (n : Nat) : String := String.ofList (List.replicate n '─')

/-- The rows for the lines shown. One bar stands for consecutive lines without a mark. -/
def body (margin : String) (width : Nat) (marks : List Mark) : Bool → List Line → List String
  | _, [] => []
  | skipped, l :: rest =>
      match marks.filter l.holds with
      | [] => (if skipped then [] else [margin ++ " "]) ++ body margin width marks true rest
      | held =>
          let number := toString l.number
          let source := " " ++ spaces (width - number.length) ++ number ++ " │ " ++ l.display
          source :: (l.annotations held).map (margin ++ " " ++ ·) ++
            body margin width marks false rest

/-- The lines of a help text or note. A line end at the very end begins no further line. -/
def textLines : List Char → List (List Char)
  | [] => []
  | '\r' :: '\n' :: rest => [] :: textLines rest
  | '\n' :: rest => [] :: textLines rest
  | c :: rest =>
      match textLines rest with
      | [] => [[c]]
      | line :: after => (c :: line) :: after

/-- A text under a heading. Its further lines are aligned with the first. -/
def paragraph (heading text : String) : List String :=
  match textLines text.toList with
  | [] => []
  | line :: rest =>
      (heading ++ String.ofList line) ::
        rest.map fun line => spaces heading.length ++ String.ofList line

/-- Help and notes. Several notes are numbered. -/
def footer (d : Diagnostic) : List (List String) :=
  (d.help.toList.map (paragraph "Help: ")) ++
    match d.notes with
    | [note] => [paragraph "Note: " note]
    | notes => notes.zipIdx.map fun (note, index) => paragraph s!"Note {index + 1}: " note

def title : Severity → String
  | .error => "Error: "
  | .warning => "Warning: "

/-- The line and column that a report is headed by. -/
def position (all : List Line) (size byte : Nat) : String :=
  if size < byte then "?:?"
  else
    let l := lineOfByte all byte
    s!"{l.number}:{l.columnOf byte + 1}"

/-- The box below a report's title. -/
def box (file : SourceFile) (d : Diagnostic) (all : List Line) (size : Nat) (marks : List Mark) :
    List String :=
  let shown := shownLines all marks
  let width := (toString (shown.getLastD emptyLine).number).length
  let margin := spaces (width + 2) ++ "│"
  [spaces (width + 2) ++ s!"╭─[ {file.name}:{position all size d.span.start} ]", margin] ++
    body margin width marks false shown ++
    ((footer d).flatMap fun rows => (margin ++ " ") :: rows.map (margin ++ " " ++ ·)) ++
    [dashes (width + 2) ++ "╯"]

/-- The report of a diagnostic about a source file. -/
def render (file : SourceFile) (d : Diagnostic) : String :=
  let all := lines file.text
  let size := byteSize file.text.toList
  let marks := ((⟨d.span, "here"⟩ : Remark) :: d.remarks).filterMap (Mark.ofRemark? all size)
  let rows := (title d.severity ++ d.message) ::
    if marks.isEmpty then [] else box file d all size marks
  String.join (rows.map (· ++ "\n"))

/-- Several reports, with an empty line between them. -/
def renderAll (file : SourceFile) (ds : List Diagnostic) : String :=
  String.intercalate "\n" (ds.map (render file))

end OpSelect.Report
