import OpSelect.Selector.Basic

/-!
Operations over two or more keyed operands. The catalog has none, so such an operation
becomes a group of instructions over fresh temporaries, one for each slot: the slots
after the first are loaded, the first temporary is prepared, the operation runs on the
temporaries, and the first slot is written back. The group is built as a whole before
anything is emitted.
-/

namespace OpSelect.Selector

/-- `set temp, container[key]` or `set temp, operand`. -/
def loadSlot (s : Selector) (slot : Slot) (temp : SymbolId) : Except Fault Instruction :=
  match slot with
  | .keyed container key => s.build "set" [temp, container, key] (.single 1)
  | .plain operand => s.build "set" [temp, operand] .empty

/-- `set container[key], temp` or `set operand, temp`. -/
def storeSlot (s : Selector) (slot : Slot) (temp : SymbolId) : Except Fault Instruction :=
  match slot with
  | .keyed container key => s.build "set" [container, key, temp] (.single 0)
  | .plain operand => s.build "set" [operand, temp] .empty

/-- The first temporary is loaded if the operation reads it, and made anew otherwise. -/
def prepareSlot (s : Selector) (operation : Instruction) (slot : Slot) (temp : SymbolId) :
    Selector × Except Fault Instruction :=
  if operation.directions.reads 0 then (s, s.loadSlot slot temp)
  else match s.aggregateType s.config.initType with
    | (t, .error fault) => (t, .error fault)
    | (t, .ok type) => (t, t.build "new" [temp, type] .empty)

/-- The parts of a group that need no further symbols: the operation, the write-back and
the loads. -/
def buildFixed (s : Selector) (mnemonic : String) (first : Slot × SymbolId)
    (others : List (Slot × SymbolId)) :
    Except Fault (Instruction × Instruction × List Instruction) := do
  let operation ← s.build mnemonic (first.2 :: others.map Prod.snd) .empty
  let writeBack ← s.storeSlot first.1 first.2
  let loads ← others.mapM fun (slot, temp) => s.loadSlot slot temp
  return (operation, writeBack, loads)

/-- Builds the group for slots and their temporaries. -/
def buildGroup (s : Selector) (mnemonic : String) :
    List (Slot × SymbolId) → Selector × Except Fault (List Instruction)
  | [] => (s, .ok [])
  | first :: others =>
      match s.buildFixed mnemonic first others with
      | .error fault => (s, .error fault)
      | .ok (operation, writeBack, loads) =>
          let (t, prepared) := s.prepareSlot operation first.1 first.2
          (t, prepared.map fun prepare => loads ++ [prepare, operation, writeBack])

/-- Emits the group for an operation with several keyed operands. If it cannot be built,
the temporaries and what else was added are taken back. -/
def expand (s : Selector) (mnemonic : String) (context : Context) :
    Selector × Except Fault Nat :=
  match s.checkKeyed context.operands context.keyed with
  | .error fault => (s, .error fault)
  | .ok () =>
      let slots := context.slots
      let (symbols, names, temps) := s.symbols.temporaries s.names .aggregate slots.length
      match { s with symbols, names }.buildGroup mnemonic (slots.zip temps) with
      | (t, .error fault) =>
          ({ t with symbols := t.symbols.truncate s.symbols.size, names := s.names }, .error fault)
      | (t, .ok group) => t.emit group

/-- Selects the operation for a mnemonic over a context's operands. -/
def resolve (s : Selector) (mnemonic : String) (context : Context) :
    Selector × Except Fault Nat :=
  if 2 ≤ context.keyed.count then s.expand mnemonic context
  else match s.build mnemonic context.operands context.keyed with
    | .error fault => (s, .error fault)
    | .ok instruction => s.emit [instruction]

end OpSelect.Selector
