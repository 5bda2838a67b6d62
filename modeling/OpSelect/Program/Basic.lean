import OpSelect.Span

/-!
The statements of intermediate code. Labels, subroutines and declarations stand
beside plain instructions, and assignments and conditional jumps are sugar that
lowering turns into instructions.
-/

namespace OpSelect

/-- The smallest operand. An integer has its sign, a float keeps the text that it
was written with, and `.Name` names an aggregate type. -/
inductive Atom where
  | integer (value : Int)
  | float (text : String)
  | string (value : String)
  | register (name : String)
  | word (name : String)
  | typeName (name : String)
deriving DecidableEq, Repr

/-- An atom with its keys, outermost container first. `a[x;y]` and `a[x][y]` are the
same operand. -/
structure Operand where
  base : Atom
  keys : List (Located Atom)
deriving DecidableEq, Repr

inductive Relation where
  | eq | ne | lt | le | gt | ge
deriving DecidableEq, Repr

namespace Relation

def mnemonic : Relation → String
  | eq => "eq"
  | ne => "ne"
  | lt => "lt"
  | le => "le"
  | gt => "gt"
  | ge => "ge"

/-- The relation that holds exactly when this one does not. -/
def inverse : Relation → Relation
  | eq => ne
  | ne => eq
  | lt => ge
  | le => gt
  | gt => le
  | ge => lt

end Relation

inductive BinaryOp where
  | add | sub | mul | div | mod | pow
  | shl | shr | lsr
  | and | or | xor
  | bitAnd | bitOr | bitXor
  | concat
deriving DecidableEq, Repr

def BinaryOp.mnemonic : BinaryOp → String
  | add => "add"
  | sub => "sub"
  | mul => "mul"
  | div => "div"
  | mod => "mod"
  | pow => "pow"
  | shl => "shl"
  | shr => "shr"
  | lsr => "lsr"
  | and => "and"
  | or => "or"
  | xor => "xor"
  | bitAnd => "band"
  | bitOr => "bor"
  | bitXor => "bxor"
  | concat => "concat"

inductive UnaryOp where
  | not | neg | bitNot
deriving DecidableEq, Repr

def UnaryOp.mnemonic : UnaryOp → String
  | not => "not"
  | neg => "neg"
  | bitNot => "bnot"

/-- The right side of an assignment. -/
inductive Value where
  | operand (source : Located Operand)
  | binary (op : BinaryOp) (lhs rhs : Located Operand)
  | unary (op : UnaryOp) (source : Located Operand)
  | new (type : Located Atom)
  | addr (label : String)
  | defined (source : Located Operand)
  | clone (source : Located Operand)
deriving DecidableEq, Repr

/-- What a conditional jump tests. -/
inductive Condition where
  | truth (operand : Located Operand)
  | compare (relation : Relation) (lhs rhs : Located Operand)
deriving DecidableEq, Repr

inductive Statement where
  | openSub (name : String)
  | closeSub
  | declare (typeName name : String)
  | label (name : String)
  | instruction (mnemonic : String) (operands : List (Located Operand))
  | assign (target : Located Operand) (value : Value)
  | jump (label : String)
  | call (label : String)
  | branch (negated : Bool) (condition : Condition) (label : String)
deriving DecidableEq, Repr

end OpSelect
