import OpSelect.Catalog.Basic

/-!
Sets of operand positions, held in sixteen bits.
-/

namespace OpSelect

/-- The number of operand positions that a mask can hold. -/
def maskWidth : Nat := 16

/-- The positions below the mask's width that satisfy the test, in order. -/
def positionsWhere (test : Nat → Bool) : List Nat := (List.range maskWidth).filter test

/-- The operand positions that are keyed containers. A container's key stands just
after it. -/
structure KeyedMask where
  bits : BitVec maskWidth
deriving DecidableEq, Repr

namespace KeyedMask

def empty : KeyedMask := ⟨0⟩

def contains (m : KeyedMask) (position : Nat) : Bool := m.bits.getLsbD position

/-- A position past the mask's width changes nothing; callers refuse it. -/
def insert (m : KeyedMask) (position : Nat) : KeyedMask :=
  ⟨m.bits ||| BitVec.twoPow maskWidth position⟩

def single (position : Nat) : KeyedMask := empty.insert position

def positions (m : KeyedMask) : List Nat := positionsWhere m.contains

def count (m : KeyedMask) : Nat := m.positions.length

def isEmpty (m : KeyedMask) : Bool := m.bits == 0

/-- Whether the position holds the key of the container just before it. -/
def isKey (m : KeyedMask) : Nat → Bool
  | 0 => false
  | position + 1 => m.contains position

end KeyedMask

/-- Which operands an instruction reads and writes. One that is both is marked as
read and as in-out, but not as written. -/
structure DirectionMask where
  ins : BitVec maskWidth
  outs : BitVec maskWidth
  inOuts : BitVec maskWidth
deriving DecidableEq, Repr

/-- The set of the list's positions whose element satisfies the test. -/
def maskOf {α : Type} (test : α → Bool) (items : List α) : BitVec maskWidth :=
  items.zipIdx.foldl (fun bits (item, position) =>
    if test item then bits ||| BitVec.twoPow maskWidth position else bits) 0

namespace DirectionMask

def empty : DirectionMask := ⟨0, 0, 0⟩

def ofDirections (directions : List Direction) : DirectionMask where
  ins := maskOf Direction.reads directions
  outs := maskOf (· == .output) directions
  inOuts := maskOf (· == .inOut) directions

def reads (m : DirectionMask) (position : Nat) : Bool := m.ins.getLsbD position

def writes (m : DirectionMask) (position : Nat) : Bool := m.outs.getLsbD position

def inOut (m : DirectionMask) (position : Nat) : Bool := m.inOuts.getLsbD position

end DirectionMask
end OpSelect
