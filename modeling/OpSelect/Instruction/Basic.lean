import OpSelect.Signature

/-!
Selected instructions and their text.
-/

namespace OpSelect

/-- What an instruction means to later passes beyond its operands. -/
inductive InstructionKind where
  | plain
  | label
  | branch (target : Nat) (unconditional : Bool)
  | addressTaking (target : Nat)
  | registerAlias
deriving DecidableEq, Repr

/-- How one logical operand is written: alone, or as a container with its key. -/
inductive SlotShape where
  | plain
  | keyed
deriving DecidableEq, Repr

namespace SlotShape

/-- The shape as a template with a pair of braces for each operand. -/
def template : SlotShape → String
  | plain => "\x7b\x7d"
  | keyed => "\x7b\x7d[\x7b\x7d]"

/-- The shapes of so many operand positions from `position` on. A container takes its
key's position with it, even past the last one. -/
def layout (keyed : KeyedMask) (position : Nat) : Nat → List SlotShape
  | 0 => []
  | 1 => [if keyed.contains position then .keyed else .plain]
  | n + 2 =>
      if keyed.contains position then .keyed :: layout keyed (position + 2) n
      else .plain :: layout keyed (position + 1) (n + 1)

/-- The texts of the operands put into the shapes. A text that is missing is left out. -/
def fill : List SlotShape → List String → List String
  | [], _ => []
  | plain :: shapes, texts => texts.headD "" :: fill shapes (texts.drop 1)
  | keyed :: shapes, texts =>
      (texts.headD "" ++ "[" ++ (texts.drop 1).headD "" ++ "]") :: fill shapes (texts.drop 2)

end SlotShape

/-- The shapes of an instruction's operands. Positions that the catalog entry does not
have are dropped. -/
def operandLayout (operandCount catalogCount : Nat) (keyed : KeyedMask) : List SlotShape :=
  SlotShape.layout keyed 0 (min operandCount catalogCount)

/-- The operand template of a layout. -/
def operandTemplate (layout : List SlotShape) : String :=
  String.intercalate ", " (layout.map SlotShape.template)

/-- A label has no opcode. -/
structure Instruction where
  mnemonic : String
  fullName : String
  opcode : Option Nat
  operands : List SymbolId
  layout : List SlotShape
  directions : DirectionMask
  keyed : KeyedMask
  kind : InstructionKind
deriving DecidableEq, Repr

namespace Instruction

def label (name : String) (symbol : SymbolId) : Instruction where
  mnemonic := name
  fullName := name
  opcode := none
  operands := [symbol]
  layout := []
  directions := .empty
  keyed := .empty
  kind := .label

def isLabel (i : Instruction) : Bool := i.kind == .label

/-- The operand that says where a branch goes or whose address is taken. -/
def target (i : Instruction) : Option SymbolId :=
  match i.kind with
  | .branch target _ | .addressTaking target => i.operands[target]?
  | .plain | .label | .registerAlias => none

/-- A label is its name and a colon, anything else its mnemonic and operands. -/
def render (i : Instruction) (symbols : SymbolTable) : String :=
  if i.isLabel then i.mnemonic ++ ":"
  else match i.layout with
    | [] => i.mnemonic
    | shapes =>
        let texts := i.operands.map fun id => (symbols.get id).displayText
        i.mnemonic ++ " " ++ String.intercalate ", " (SlotShape.fill shapes texts)

end Instruction
end OpSelect
