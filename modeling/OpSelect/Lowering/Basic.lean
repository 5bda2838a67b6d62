import OpSelect.Diagnostic.Basic
import OpSelect.Selector.Indexed

/-!
The state of lowering a file, and the diagnostics for what the selector refuses.
Lowering stops at the first diagnostic.
-/

namespace OpSelect

/-- The selector, the subroutine that is open, and where each label is first mentioned. -/
structure Lowering where
  selector : Selector
  openSub : Option (String × Span) := none
  labelRefs : List (SymbolId × Span) := []
deriving DecidableEq, Repr

/-- Why lowering does not finish. -/
inductive Stop where
  | reported (diagnostics : List Diagnostic)
  | misuse (misuse : Misuse)
deriving DecidableEq, Repr

abbrev Lower := StateT Lowering (Except Stop)

/-- A refusal as a diagnostic, with advice where there is some. -/
def SelectError.diagnostic (error : SelectError) (span : Span) : Diagnostic :=
  let plain := Diagnostic.error span error.message
  match error with
  | .unresolvedOpcode mnemonic _ =>
      plain.withHelp s!"`imcc ops {mnemonic}` lists the operand forms the catalog accepts"
  | .unsupportedIndexedAssignment .. =>
      plain.withHelp "index a pmc, or store a string into a string indexed by an integer"
  | .illegalKeyedOperand .. => plain.withHelp "declare the container with '.local pmc'"
  | .arityExceeded _ => plain.withNote "a key counts as an operand of its own"
  | .unknownAggregateType _ =>
      plain.withHelp "`imcc ops --types` lists the known aggregate types"
  | .symbol (.classConflict ..) =>
      plain.withHelp "each name keeps the type it was first used with"
  | .symbol _ => plain

namespace Lowering

def report {α : Type} (diagnostic : Diagnostic) : Lower α := throw (.reported [diagnostic])

/-- A result of the selector. A refusal is reported at the span. -/
def expect {α : Type} (span : Span) : Except Fault α → Lower α
  | .ok a => pure a
  | .error (.rejected error) => report (error.diagnostic span)
  | .error (.misuse misuse) => throw (.misuse misuse)

/-- A step of the selector. -/
def select {α : Type} (span : Span) (step : Selector → Selector × Except Fault α) : Lower α := do
  let state ← get
  let (selector, result) := step state.selector
  let a ← expect span result
  set { state with selector }
  return a

/-- A step of the symbol table. -/
def symbols (span : Span) (step : SymbolTable → Except SymbolError (SymbolTable × SymbolId)) :
    Lower SymbolId :=
  select span fun selector =>
    match step selector.symbols with
    | .ok (symbols, id) => ({ selector with symbols }, .ok id)
    | .error error => (selector, .error (.rejected (.symbol error)))

/-- A step of the symbol table that cannot fail. -/
def intern (step : SymbolTable → SymbolTable × SymbolId) : Lower SymbolId := do
  let state ← get
  let (symbols, id) := step state.selector.symbols
  set { state with selector := { state.selector with symbols } }
  return id

end Lowering
end OpSelect
