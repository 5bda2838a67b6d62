import OpSelect.Span

/-!
What a stage of compilation has to say about a place of the source.
-/

namespace OpSelect

inductive Severity where
  | error
  | warning
deriving DecidableEq, Repr

/-- A remark on another place that explains the diagnostic. -/
structure Remark where
  span : Span
  message : String
deriving DecidableEq, Repr

structure Diagnostic where
  severity : Severity
  message : String
  span : Span
  remarks : List Remark := []
  help : Option String := none
  notes : List String := []
deriving DecidableEq, Repr

namespace Diagnostic

def error (span : Span) (message : String) : Diagnostic := { severity := .error, message, span }

def warning (span : Span) (message : String) : Diagnostic := { severity := .warning, message, span }

def withRemark (d : Diagnostic) (span : Span) (message : String) : Diagnostic :=
  { d with remarks := d.remarks ++ [⟨span, message⟩] }

def withHelp (d : Diagnostic) (help : String) : Diagnostic := { d with help := some help }

def withNote (d : Diagnostic) (note : String) : Diagnostic := { d with notes := d.notes ++ [note] }

end Diagnostic
end OpSelect
