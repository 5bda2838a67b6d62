import OpSelect.Text.Escape

/-!
Symbols: what the operands of instructions stand for.
-/

namespace OpSelect

/-- The register set that a value lives in. -/
inductive ValueClass where
  | integer
  | float
  | string
  | aggregate
deriving DecidableEq, Repr

namespace ValueClass

/-- How messages name the class. -/
def describe : ValueClass → String
  | integer => "integer"
  | float => "float"
  | string => "string"
  | aggregate => "aggregate"

/-- The class's tag in mangled names. -/
def tag : ValueClass → String
  | integer => "i"
  | float => "n"
  | string => "s"
  | aggregate => "p"

/-- The letter of the class's registers. -/
def letter : ValueClass → Char
  | integer => 'I'
  | float => 'N'
  | string => 'S'
  | aggregate => 'P'

def ofLetter? : Char → Option ValueClass
  | 'I' => some integer
  | 'N' => some float
  | 'S' => some string
  | 'P' => some aggregate
  | _ => none

/-- The class that a declaration's type name asks for. -/
def ofTypeName? : String → Option ValueClass
  | "int" => some integer
  | "float" => some float
  | "num" => some float
  | "string" => some string
  | "pmc" => some aggregate
  | _ => none

/-- The name of a machine register, such as `I3`. -/
def machineRegister (cls : ValueClass) (index : Nat) : String := s!"{cls.letter}{index}"

/-- The name of a virtual register, such as `$I3`. -/
def virtualRegister (cls : ValueClass) (index : Nat) : String := s!"${cls.machineRegister index}"

end ValueClass

inductive SymbolKind where
  | var
  | constant
  | address
  | machineRegister (index : Nat)
deriving DecidableEq, Repr

structure Symbol where
  name : String
  cls : ValueClass
  kind : SymbolKind
deriving DecidableEq, Repr

namespace Symbol

/-- The operand as a listing shows it. String constants are quoted. -/
def displayText (s : Symbol) : String :=
  match s.kind, s.cls with
  | .constant, .string => "\"" ++ Text.escape s.name ++ "\""
  | .machineRegister index, cls => cls.machineRegister index
  | _, _ => s.name

/-- A label's address is as constant as a literal. -/
def isConstant (s : Symbol) : Bool :=
  match s.kind with
  | .constant | .address => true
  | .var | .machineRegister _ => false

end Symbol

inductive SymbolError where
  | redefined (name : String)
  | classConflict (name : String) (existing requested : ValueClass)
  | notALabel (name : String)
  | notAValue (name : String)
deriving DecidableEq, Repr

def SymbolError.message : SymbolError → String
  | redefined name => s!"'{name}' is already defined"
  | classConflict name existing requested =>
      s!"'{name}' is declared as {existing.describe}, but used as {requested.describe}"
  | notALabel name => s!"'{name}' is not a label"
  | notAValue name => s!"'{name}' is not a register or variable"

end OpSelect
