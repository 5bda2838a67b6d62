import OpSelect.Lowering.Basic
import OpSelect.Program.Basic
import OpSelect.Token.Lexeme

/-!
Operands: from atoms to symbols, and from keys to a single key symbol.
-/

namespace OpSelect

/-- Reads the name of a machine register: a class letter and a number below 256, with
leading zeros allowed. -/
def machineRegister? (name : String) : Option (ValueClass × Nat) :=
  match name.toList with
  | [] => none
  | letter :: digits => do
      let cls ← ValueClass.ofLetter? letter
      let index := numeralValue 10 digits
      if !digits.isEmpty ∧ digits.all Char.isDigit ∧ index < 256 then some (cls, index) else none

namespace Lowering

/-- The address of a label. Its first mention is remembered. -/
def labelRef (name : String) (span : Span) : Lower SymbolId := do
  let id ← symbols span (·.address name)
  modify fun state =>
    if state.labelRefs.any (·.1 == id) then state
    else { state with labelRefs := state.labelRefs ++ [(id, span)] }
  return id

/-- A word is a declared name, or else a machine register, or else a label. -/
def word (name : String) (span : Span) : Lower SymbolId := do
  let table := (← get).selector.symbols
  match table.lookup name with
  | some id => if (table.get id).kind = .address then undeclared else return id
  | none => undeclared
where
  undeclared : Lower SymbolId :=
    match machineRegister? name with
    | some (cls, index) => symbols span (·.machineRegister cls index)
    | none => labelRef name span

def atom (a : Atom) (span : Span) : Lower SymbolId :=
  match a with
  | .integer value => intern (·.constant (toString value) .integer)
  | .float text => intern (·.constant text .float)
  | .string value => intern (·.constant value .string)
  | .register name =>
      match (name.toList.drop 1).head?.bind ValueClass.ofLetter? with
      | some cls => symbols span (·.var name cls)
      | none => report (.error span s!"bad register '{name}'")
  | .typeName name => select span (·.aggregateType name)
  | .word name => word name span

/-- The key that a chain of keys collapses to. -/
def key (first : Located Atom) (rest : List (Located Atom)) : Lower SymbolId := do
  let head ← atom first.node first.span
  let tail ← rest.mapM fun part => atom part.node part.span
  intern (KeyChain.collapse ⟨head, tail⟩)

/-- The symbols of an operand, its container before its keys. -/
def slot (o : Located Operand) : Lower Slot := do
  let base ← atom o.node.base o.span
  match o.node.keys with
  | [] => return .plain base
  | first :: rest => return .keyed base (← key first rest)

/-- Adds an operand to a context. -/
def append (context : Context) (o : Located Operand) : Lower Context := do
  expect o.span (context.fill [← slot o])

/-- Adds a symbol to a context. -/
def appendSymbol (context : Context) (span : Span) (id : SymbolId) : Lower Context :=
  expect span (context.fill [.plain id])

/-- An empty context of the selector. -/
def context : Lower Context := return (← get).selector.context

end Lowering
end OpSelect
