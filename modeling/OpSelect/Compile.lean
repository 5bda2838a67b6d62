import OpSelect.Diagnostic.Report
import OpSelect.Lowering.Statement
import OpSelect.Program.Parse

/-!
Compiling a source text against a catalog: reading it, then lowering it.
-/

namespace OpSelect

/-- Why a text does not compile: the settings are invalid, the text has errors, or the
selector was misused, which never happens. -/
inductive CompileError where
  | config (error : ConfigError)
  | reported (diagnostics : List Diagnostic)
  | misuse (misuse : Misuse)
deriving DecidableEq, Repr

/-- What is printed for a failed compilation. -/
def CompileError.render (file : SourceFile) : CompileError → String
  | config error => error.message
  | reported diagnostics => Report.renderAll file diagnostics
  | misuse m => m.message

/-- The settings are looked at first, then the text as a whole, then its statements. -/
def compile (catalog : Catalog) (config : Config) (source : String) :
    Except CompileError Lowered :=
  match Selector.start catalog config with
  | .error error => .error (.config error)
  | .ok selector =>
      match parse source with
      | .error diagnostics => .error (.reported diagnostics)
      | .ok statements =>
          match lower statements selector with
          | .error (.reported diagnostics) => .error (.reported diagnostics)
          | .error (.misuse misuse) => .error (.misuse misuse)
          | .ok lowered => .ok lowered

end OpSelect
