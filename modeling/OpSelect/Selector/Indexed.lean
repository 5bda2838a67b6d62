import OpSelect.Selector.Expansion

/-!
Assignments with one indexed side. Strings are indexed through `substr`, one character
at a time; everything else is a keyed `set` on an aggregate.
-/

namespace OpSelect.Selector

/-- Selects an operation over slots put into a fresh context. -/
def resolveSlots (s : Selector) (mnemonic : String) (slots : List Slot) :
    Selector × Except Fault Nat :=
  match s.context.fill slots with
  | .error fault => (s, .error fault)
  | .ok context => s.resolve mnemonic context

/-- The constant one, the length of a single character. -/
def one (s : Selector) : Selector × SymbolId :=
  let (symbols, id) := s.symbols.constant "1" .integer
  ({ s with symbols }, id)

/-- `dest = container[key]` -/
def fetchIndexed (s : Selector) (dest container key : SymbolId) : Selector × Except Fault Nat :=
  match s.classOf dest, s.classOf container, s.classOf key with
  | .string, .string, .integer =>
      let (t, one) := s.one
      t.resolveSlots "substr" [.plain dest, .plain container, .plain key, .plain one]
  | _, _, _ => s.resolveSlots "set" [.plain dest, .keyed container key]

/-- `container[key] = value` -/
def storeIndexed (s : Selector) (container key value : SymbolId) : Selector × Except Fault Nat :=
  match s.classOf container, s.classOf key, s.classOf value with
  | .string, .integer, .string =>
      let (t, one) := s.one
      t.resolveSlots "substr" [.plain container, .plain key, .plain one, .plain value]
  | .aggregate, _, _ => s.resolveSlots "set" [.keyed container key, .plain value]
  | container, key, value =>
      (s, .error (.rejected (.unsupportedIndexedAssignment container key value)))

end OpSelect.Selector
