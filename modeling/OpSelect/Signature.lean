import OpSelect.Instruction.Mask
import OpSelect.Symbol.Table

/-!
Operand signatures: what an operation's mangled name records about its operands.
-/

namespace OpSelect

/-- One operand's part in a mangled name. -/
inductive ArgTag where
  | register (cls : ValueClass)
  | constant (cls : ValueClass)
  | address
  | key (integer constant : Bool)
deriving DecidableEq, Repr

namespace ArgTag

/-- Of a key only matters whether it is an integer and whether it is constant. -/
def of (symbol : Symbol) (isKey : Bool) : ArgTag :=
  if isKey then .key (symbol.cls == .integer) symbol.isConstant
  else match symbol.kind with
    | .address => .address
    | .constant => .constant symbol.cls
    | .var | .machineRegister _ => .register symbol.cls

/-- A label's address looks like an integer constant. -/
def text : ArgTag → String
  | register cls => cls.tag
  | constant .integer => "ic"
  | constant .float => "nc"
  | constant .string => "sc"
  | constant .aggregate => "pc"
  | address => "ic"
  | key false false => "k"
  | key false true => "kc"
  | key true false => "ki"
  | key true true => "kic"

end ArgTag

/-- The tags of an instruction's operands, in order. -/
abbrev Signature := List ArgTag

namespace Signature

def of (symbols : SymbolTable) (operands : List SymbolId) (keyed : KeyedMask) : Signature :=
  operands.zipIdx.map fun (id, position) => ArgTag.of (symbols.get id) (keyed.isKey position)

/-- The catalog name of a mnemonic over operands of this signature. -/
def mangle (signature : Signature) (mnemonic : String) : String :=
  fullName mnemonic (signature.map ArgTag.text)

/-- How messages show the signature. -/
def describe (signature : Signature) : String :=
  "(" ++ String.intercalate ", " (signature.map ArgTag.text) ++ ")"

end Signature
end OpSelect
