import OpSelect.Program.Grammar
import OpSelect.Token.Lexeme

/-!
Reading a whole file, line by line. When a line is bad, its later tokens are tried
in turn as the start of a line, so that one mistake does not hide the next line's.
A file with any complaint is refused.
-/

namespace OpSelect

/-- What became of a file: its statements, the complaints about lines that were
recovered from, and the complaint about the one that was not. -/
structure Reading where
  statements : List (Located Statement)
  recovered : List Complaint
  final : Option Complaint

namespace Reading

/-- Drops tokens of a bad line until a line can be read that ends where the bad one
does. There is none if only the line's end is left. -/
def retry : List Token → Option (List (Located Statement) × Cursor × List Miss)
  | [] => none
  | t :: rest =>
      if t.kind = .newline then none
      else match Grammar.line.run ⟨t.span.stop, rest⟩ with
        | ⟨some (statements, d), misses⟩ => some (statements, d, misses)
        | ⟨none, _⟩ => retry rest

theorem retry_shortens {tokens : List Token} {statements : List (Located Statement)}
    {d : Cursor} {misses : List Miss} (h : retry tokens = some (statements, d, misses)) :
    d.rest.length < tokens.length := by
  fun_induction retry tokens with
  | case1 | case2 => simp at h
  | case3 t rest _ s e m he =>
      cases h
      have := Grammar.line.shortens ⟨t.span.stop, rest⟩ statements d (by rw [he])
      exact Nat.lt_succ_of_lt this
  | case4 t rest _ _ _ ih => exact Nat.lt_succ_of_lt (ih h)

/-- The newlines at the cursor. -/
def newlines (c : Cursor) : Sweep (List Unit) := (Reader.token .newline).repeatedly c

theorem newlines_keeps (c : Cursor) : (newlines c).cursor.rest.length ≤ c.rest.length :=
  (Reader.token .newline).repeatedly_keeps c

/-- Reads lines from the cursor on. The complaint handed over holds what the text
before has left: a miss at the very start of a line belongs to that line too. -/
def lines (c : Cursor) (complaint : Option Complaint) : Reading :=
  let attempt := Grammar.line.run c
  let complaint := Complaint.noteAll complaint attempt.misses
  match h : attempt.result with
  | some (statements, d) =>
      have := Grammar.line.shortens c statements d h
      have := newlines_keeps d
      let gap := newlines d
      let rest := lines gap.cursor (Complaint.noteAll complaint gap.misses)
      { rest with statements := statements ++ rest.statements }
  | none =>
      match h : retry c.rest with
      | some (statements, d, misses) =>
          have := retry_shortens h
          have := newlines_keeps d
          let gap := newlines d
          let rest := lines gap.cursor (Complaint.noteAll none (misses ++ gap.misses))
          { rest with
            statements := statements ++ rest.statements
            recovered := complaint.toList ++ rest.recovered }
      | none =>
          let final := match c.rest with
            | [] => none
            | _ :: _ => Complaint.note complaint (c.miss .endOfInput)
          ⟨[], [], final⟩
termination_by c.rest.length

/-- Reads a file's tokens. Newlines may stand before the first line. -/
def ofTokens (tokens : List Token) : Reading :=
  let gap := newlines ⟨0, tokens⟩
  lines gap.cursor (Complaint.noteAll none gap.misses)

def complaints (r : Reading) : List Complaint := r.recovered ++ r.final.toList

end Reading

/-- The statements of a token sequence, or what is wrong with it. -/
def parseTokens (tokens : List Token) : Except (List Diagnostic) (List (Located Statement)) :=
  let reading := Reading.ofTokens tokens
  match reading.complaints with
  | [] => .ok reading.statements
  | complaints => .error (complaints.map Complaint.diagnostic)

/-- The statements of a source text. Its lexical errors are reported alone. -/
def parse (source : String) : Except (List Diagnostic) (List (Located Statement)) := do
  parseTokens (← tokenize source)

end OpSelect
