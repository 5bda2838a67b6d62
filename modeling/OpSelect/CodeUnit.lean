import OpSelect.Instruction.Basic

/-!
A unit of selected instructions, its listing and its records.
-/

namespace OpSelect

structure CodeUnit where
  symbols : SymbolTable
  instructions : List Instruction
deriving DecidableEq, Repr

/-- What is told about an instruction outside the program. -/
structure InstructionRecord where
  text : String
  fullName : String
  opcode : Option Nat
  kind : InstructionKind
  keyed : List Nat
  ins : List Nat
  outs : List Nat
  inOuts : List Nat
deriving DecidableEq, Repr

def Instruction.record (i : Instruction) (symbols : SymbolTable) : InstructionRecord where
  text := i.render symbols
  fullName := i.fullName
  opcode := i.opcode
  kind := i.kind
  keyed := i.keyed.positions
  ins := positionsWhere i.directions.reads
  outs := positionsWhere i.directions.writes
  inOuts := positionsWhere i.directions.inOut

namespace CodeUnit

/-- One line of the listing. Instructions are indented, labels are not. -/
def line (u : CodeUnit) (i : Instruction) : String :=
  (if i.isLabel then "" else "    ") ++ i.render u.symbols ++ "\n"

def listing (u : CodeUnit) : String := String.join (u.instructions.map u.line)

def records (u : CodeUnit) : List InstructionRecord := u.instructions.map (·.record u.symbols)

end CodeUnit
end OpSelect
