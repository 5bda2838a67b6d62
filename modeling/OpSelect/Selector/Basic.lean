import OpSelect.CodeUnit
import OpSelect.Config
import OpSelect.Selector.Context
import OpSelect.Symbol.Temporary

/-!
The selector: a catalog and settings, the symbols and instructions of the unit so far,
and the names for temporaries. Every operation gives back the selector next to its
result, also when it is refused.
-/

namespace OpSelect

structure Selector where
  catalog : Catalog
  config : Config
  symbols : SymbolTable := {}
  names : NameSupply := {}
  instructions : List Instruction := []
deriving DecidableEq, Repr

namespace Selector

/-- An empty selector, if the settings are valid. -/
def start (catalog : Catalog) (config : Config) : Except ConfigError Selector :=
  config.validate.map fun _ => { catalog, config }

/-- An empty context with this selector's limit. -/
def context (s : Selector) : Context := { maxArity := s.config.maxArity }

def finish (s : Selector) : CodeUnit := ⟨s.symbols, s.instructions⟩

def classOf (s : Selector) (id : SymbolId) : ValueClass := (s.symbols.get id).cls

/-- Checks one keyed position: a key must follow, and only aggregates have keys. -/
def checkKeyedAt (s : Selector) (operands : List SymbolId) (position : Nat) :
    Except Fault Unit :=
  match operands.drop position with
  | container :: _ :: _ =>
      let symbol := s.symbols.get container
      if symbol.cls = .aggregate then .ok ()
      else .error (.rejected (.illegalKeyedOperand symbol.displayText symbol.cls))
  | _ => .error (.misuse (.missingKey position))

/-- Checks the keyed positions in order. -/
def checkKeyed (s : Selector) (operands : List SymbolId) (keyed : KeyedMask) :
    Except Fault Unit :=
  keyed.positions.forM (s.checkKeyedAt operands)

/-- The kind of an instruction. The last operand of a jump is its target, except for
subroutine calls and returns; a copy between aggregates may merge their registers. -/
def classify (s : Selector) (entry : OpEntry) (mnemonic : String) (operands : List SymbolId) :
    InstructionKind :=
  if entry.jump ∧ mnemonic ≠ "bsr" ∧ mnemonic ≠ "ret" then
    match operands.length with
    | 0 => .plain
    | last + 1 => .branch last (mnemonic == "branch")
  else if mnemonic = "set" then
    match operands with
    | [dest, source] =>
        if s.classOf dest = .aggregate ∧ s.classOf source = .aggregate then .registerAlias
        else .plain
    | _ => .plain
  else if mnemonic = "set_addr" then .addressTaking 1
  else .plain

/-- Finds the operation for a mnemonic over these operands. -/
def build (s : Selector) (mnemonic : String) (operands : List SymbolId) (keyed : KeyedMask) :
    Except Fault Instruction := do
  s.checkKeyed operands keyed
  let signature := Signature.of s.symbols operands keyed
  match s.catalog.lookup (signature.mangle mnemonic) with
  | none => throw (.rejected (.unresolvedOpcode mnemonic signature))
  | some entry =>
      return {
        mnemonic
        fullName := entry.fullName
        opcode := some entry.opcode
        operands
        layout := operandLayout operands.length entry.directions.length keyed
        directions := .ofDirections entry.directions
        keyed
        kind := s.classify entry mnemonic operands }

/-- Appends instructions. The result is the place of the first of them. -/
def emit (s : Selector) (group : List Instruction) : Selector × Except Fault Nat :=
  ({ s with instructions := s.instructions ++ group }, .ok s.instructions.length)

/-- The integer constant that numbers an aggregate type. -/
def aggregateType (s : Selector) (name : String) : Selector × Except Fault SymbolId :=
  match s.catalog.typeId name with
  | none => (s, .error (.rejected (.unknownAggregateType name)))
  | some id =>
      let (symbols, constant) := s.symbols.constant (toString id) .integer
      ({ s with symbols }, .ok constant)

/-- Defines a label at the current place. -/
def label (s : Selector) (name : String) : Selector × Except Fault Nat :=
  match s.symbols.placeLabel name with
  | (symbols, .error e) => ({ s with symbols }, .error (.rejected (.symbol e)))
  | (symbols, .ok id) => { s with symbols }.emit [.label name id]

end Selector
end OpSelect
