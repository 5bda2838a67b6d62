import OpSelect.Lowering.Operand

/-!
Statements: what each form of statement asks of the selector, and the checks that wait
for the end of the file. A statement first turns its operands into symbols; then it
makes one request of the selector, or none.
-/

namespace OpSelect

/-- What a statement asks of the selector once its operands are symbols. -/
inductive Request where
  | operation (mnemonic : String) (context : Context)
  | fetch (dest container key : SymbolId)
  | store (container key value : SymbolId)
  | label (name : String)
deriving DecidableEq, Repr

def Request.answer : Request → Selector → Selector × Except Fault Nat
  | operation mnemonic context, s => s.resolve mnemonic context
  | fetch dest container key, s => s.fetchIndexed dest container key
  | store container key value, s => s.storeIndexed container key value
  | label name, s => s.label name

namespace Lowering

/-- `mnemonic operand, operand, ...` -/
def operation (mnemonic : String) (operands : List (Located Operand)) : Lower Request := do
  return .operation mnemonic (← operands.foldlM append (← context))

/-- An operation whose last operand is the address of a label. -/
def labelOperation (span : Span) (mnemonic : String) (operands : List (Located Operand))
    (label : String) : Lower Request := do
  let context ← operands.foldlM append (← context)
  let target ← labelRef label span
  return .operation mnemonic (← appendSymbol context span target)

/-- `target = source`. With one indexed side it is an indexed access. -/
def copy (target source : Located Operand) : Lower Request := do
  match target.node.keys, source.node.keys with
  | first :: rest, [] =>
      let container ← atom target.node.base target.span
      let key ← key first rest
      let value ← atom source.node.base source.span
      return .store container key value
  | [], first :: rest =>
      let dest ← atom target.node.base target.span
      let container ← atom source.node.base source.span
      let key ← key first rest
      return .fetch dest container key
  | _, _ => operation "set" [target, source]

/-- The number of a type that is written as a name. -/
def typeNumber (type : Located Atom) : Lower SymbolId :=
  match type.node with
  | .typeName name | .word name => select type.span (·.aggregateType name)
  | _ => report (.error type.span "expected an aggregate type")

/-- `target = new type` -/
def create (span : Span) (target : Located Operand) (type : Located Atom) : Lower Request := do
  let id ← typeNumber type
  return .operation "new" (← appendSymbol (← append (← context) target) span id)

def assign (span : Span) (target : Located Operand) : Value → Lower Request
  | .operand source => copy target source
  | .binary op lhs rhs => operation op.mnemonic [target, lhs, rhs]
  | .unary op source => operation op.mnemonic [target, source]
  | .addr label => labelOperation span "set_addr" [target] label
  | .defined source => operation "defined" [target, source]
  | .clone source => operation "clone" [target, source]
  | .new type => create span target type

/-- `if condition goto label`. A negated comparison jumps on the inverse relation. -/
def branch (span : Span) (negated : Bool) (condition : Condition) (label : String) :
    Lower Request :=
  match condition with
  | .truth operand => labelOperation span (if negated then "unless" else "if") [operand] label
  | .compare relation lhs rhs =>
      labelOperation span (if negated then relation.inverse else relation).mnemonic [lhs, rhs]
        label

/-- `.sub name`: a label, and a subroutine that must be closed before the next. -/
def openSubroutine (span : Span) (name : String) : Lower Request := do
  match (← get).openSub with
  | some (other, opened) =>
      report (((Diagnostic.error span s!"'.sub {name}' starts inside '.sub {other}'").withRemark
        opened "still open").withHelp "close the previous subroutine with '.end'")
  | none =>
      modify fun state => { state with openSub := some (name, span) }
      return .label name

/-- `.end` -/
def closeSubroutine (span : Span) : Lower Unit := do
  match (← get).openSub with
  | some _ => modify fun state => { state with openSub := none }
  | none => report (.error span "'.end' without an open '.sub'")

/-- `.local type name` -/
def declare (span : Span) (typeName name : String) : Lower Unit := do
  match ValueClass.ofTypeName? typeName with
  | some cls =>
      let _ ← symbols span (·.declare name cls)
  | none =>
      report ((Diagnostic.error span s!"unknown type '{typeName}'").withHelp
        "expected one of int, float, num, string, pmc")

/-- The request of a statement. Declarations and the ends of subroutines make none. -/
def request (s : Located Statement) : Lower (Option Request) := do
  match s.node with
  | .openSub name => return some (← openSubroutine s.span name)
  | .closeSub =>
      closeSubroutine s.span
      return none
  | .declare typeName name =>
      declare s.span typeName name
      return none
  | .label name => return some (.label name)
  | .instruction mnemonic operands => return some (← operation mnemonic operands)
  | .assign target value => return some (← assign s.span target value)
  | .jump label => return some (← labelOperation s.span "branch" [] label)
  | .call label => return some (← labelOperation s.span "bsr" [] label)
  | .branch negated condition label => return some (← branch s.span negated condition label)

def statement (s : Located Statement) : Lower Unit := do
  match ← request s with
  | some request =>
      let _ ← select s.span request.answer
  | none => return ()

/-- The diagnostics for labels that were mentioned and never defined. -/
def undefinedLabels (state : Lowering) : List Diagnostic :=
  state.selector.symbols.undefinedLabels.filterMap fun (name, id) =>
    (state.labelRefs.find? (·.1 == id)).map fun (_, span) =>
      (Diagnostic.error span s!"label '{name}' is never defined").withHelp
        s!"define it with '{name}:' or declare it with '.local'"

/-- A subroutine that is still open at the end. -/
def unclosed (state : Lowering) : List Diagnostic :=
  state.openSub.toList.map fun (name, span) =>
    (Diagnostic.warning span s!"'.sub {name}' is never closed").withHelp
      "add '.end' after its last instruction"

end Lowering

/-- A unit with the warnings about it. -/
structure Lowered where
  unit : CodeUnit
  warnings : List Diagnostic
deriving DecidableEq, Repr

/-- Lowers the statements of a file in order. -/
def lower (statements : List (Located Statement)) (selector : Selector) : Except Stop Lowered := do
  let (_, state) ← (statements.forM Lowering.statement).run { selector }
  match state.undefinedLabels with
  | [] => return ⟨state.selector.finish, state.unclosed⟩
  | diagnostics => throw (.reported diagnostics)

end OpSelect
