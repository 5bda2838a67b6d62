import OpSelect.Signature

/-!
Why an instruction cannot be selected.
-/

namespace OpSelect

inductive SelectError where
  | unresolvedOpcode (mnemonic : String) (signature : Signature)
  | unsupportedIndexedAssignment (container key value : ValueClass)
  | illegalKeyedOperand (name : String) (cls : ValueClass)
  | arityExceeded (max : Nat)
  | unknownAggregateType (name : String)
  | symbol (error : SymbolError)
deriving DecidableEq, Repr

def SelectError.message : SelectError → String
  | unresolvedOpcode mnemonic signature =>
      s!"no opcode '{signature.mangle mnemonic}' for '{mnemonic}' with operands {signature.describe}"
  | unsupportedIndexedAssignment container key value =>
      s!"cannot store a {value.describe} through a {container.describe} indexed by a {key.describe}"
  | illegalKeyedOperand name cls => s!"'{name}' is {cls.describe}, only aggregates can be indexed"
  | arityExceeded max => s!"too many operands, at most {max} are allowed"
  | unknownAggregateType name => s!"unknown aggregate type '{name}'"
  | symbol error => error.message

/-- A call that its caller had to rule out: a keyed position that no mask holds, or a
container that is marked keyed and has no operand after it. -/
inductive Misuse where
  | positionOutOfRange (position : Nat)
  | missingKey (position : Nat)
deriving DecidableEq, Repr

def Misuse.message : Misuse → String
  | positionOutOfRange position => s!"keyed position {position} out of range"
  | missingKey position => s!"keyed operand at position {position} has no key"

/-- A source program can be rejected; misuse is no program's fault. -/
inductive Fault where
  | rejected (error : SelectError)
  | misuse (misuse : Misuse)
deriving DecidableEq, Repr

end OpSelect
