import OpSelect.Selector.Fault

/-!
The operands of an instruction under construction. A container with a key counts as
two operands, and the first of them is marked keyed.
-/

namespace OpSelect

structure Context where
  maxArity : Nat
  operands : List SymbolId := []
  keyed : KeyedMask := .empty
deriving DecidableEq, Repr

/-- A logical operand: a plain one, or a container with its key. -/
inductive Slot where
  | plain (operand : SymbolId)
  | keyed (container key : SymbolId)
deriving DecidableEq, Repr

namespace Slot

/-- The operands that the slot covers. -/
def operands : Slot → List SymbolId
  | plain operand => [operand]
  | keyed container key => [container, key]

/-- Groups the operands from `position` on. A keyed operand takes the next one as its
key, whatever that one is marked. -/
def group (keyed : KeyedMask) (position : Nat) : List SymbolId → List Slot
  | [] => []
  | [operand] => [.plain operand]
  | first :: second :: rest =>
      if keyed.contains position then .keyed first second :: group keyed (position + 2) rest
      else .plain first :: group keyed (position + 1) (second :: rest)

end Slot

namespace Context

def arity (c : Context) : Nat := c.operands.length

def clear (c : Context) : Context := { maxArity := c.maxArity }

def slots (c : Context) : List Slot := Slot.group c.keyed 0 c.operands

/-- Adds an operand, if there is room. -/
def append (c : Context) (operand : SymbolId) : Context × Except Fault Unit :=
  if c.maxArity ≤ c.arity then (c, .error (.rejected (.arityExceeded c.maxArity)))
  else ({ c with operands := c.operands ++ [operand] }, .ok ())

/-- Marks the operand at a position as keyed. -/
def setKeyed (c : Context) (position : Nat) : Context × Except Fault Unit :=
  if position < maskWidth then ({ c with keyed := c.keyed.insert position }, .ok ())
  else (c, .error (.misuse (.positionOutOfRange position)))

/-- Adds a container and its key. If there is room for the container only, it stays,
unmarked. -/
def appendKeyed (c : Context) (container key : SymbolId) : Context × Except Fault Unit :=
  match c.append container with
  | (d, .error fault) => (d, .error fault)
  | (d, .ok ()) =>
      match d.append key with
      | (e, .error fault) => (e, .error fault)
      | (e, .ok ()) => e.setKeyed c.arity

/-- Adds a slot. -/
def appendSlot (c : Context) : Slot → Context × Except Fault Unit
  | .plain operand => c.append operand
  | .keyed container key => c.appendKeyed container key

/-- Adds slots in order. -/
def fill : Context → List Slot → Except Fault Context
  | c, [] => .ok c
  | c, slot :: slots =>
      match c.appendSlot slot with
      | (_, .error fault) => .error fault
      | (d, .ok ()) => d.fill slots

end Context
end OpSelect
