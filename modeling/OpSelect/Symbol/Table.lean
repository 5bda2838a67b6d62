import OpSelect.Symbol.Basic

/-!
The symbol table of a unit: an arena of symbols with an index of names. Variables,
machine registers and labels share the index. Constants have none: they are interned
by text and class, and composite keys are not even that. Entries are only ever added
at the end, so `truncate` can take back what a failed expansion added.
-/

namespace OpSelect

/-- A symbol's place in the arena. -/
abbrev SymbolId := Nat

structure SymbolTable where
  symbols : List Symbol := []
  names : List (String × SymbolId) := []
  constants : List ((String × ValueClass) × SymbolId) := []
  definedLabels : List SymbolId := []
deriving DecidableEq, Repr, Inhabited

namespace SymbolTable

def size (t : SymbolTable) : Nat := t.symbols.length

/-- The symbol with this id. Ids are handed out by the table, so the nameless symbol
for an unknown one is never seen. -/
def get (t : SymbolTable) (id : SymbolId) : Symbol :=
  t.symbols.getD id ⟨"", .integer, .var⟩

def lookup (t : SymbolTable) (name : String) : Option SymbolId :=
  (t.names.find? (·.1 == name)).map Prod.snd

def isTaken (t : SymbolTable) (name : String) : Bool := (t.lookup name).isSome

def isDefinedLabel (t : SymbolTable) (id : SymbolId) : Bool := t.definedLabels.contains id

/-- Adds a symbol that no name leads to. -/
def push (t : SymbolTable) (symbol : Symbol) : SymbolTable × SymbolId :=
  ({ t with symbols := t.symbols ++ [symbol] }, t.size)

/-- Adds a symbol under its own name. -/
def pushNamed (t : SymbolTable) (symbol : Symbol) : SymbolTable × SymbolId :=
  let (grown, id) := t.push symbol
  ({ grown with names := grown.names ++ [(symbol.name, id)] }, id)

/-- Declares a variable. A name can be declared once. -/
def declare (t : SymbolTable) (name : String) (cls : ValueClass) :
    Except SymbolError (SymbolTable × SymbolId) :=
  if t.isTaken name then .error (.redefined name)
  else .ok (t.pushNamed ⟨name, cls, .var⟩)

/-- Checks that a symbol holds values of the class. -/
def expectValue (t : SymbolTable) (id : SymbolId) (cls : ValueClass) : Except SymbolError Unit :=
  let symbol := t.get id
  if symbol.kind = .address then .error (.notAValue symbol.name)
  else if symbol.cls ≠ cls then .error (.classConflict symbol.name symbol.cls cls)
  else .ok ()

/-- The value symbol of this name, made on first mention. -/
def mention (t : SymbolTable) (symbol : Symbol) : Except SymbolError (SymbolTable × SymbolId) :=
  match t.lookup symbol.name with
  | some id => (t.expectValue id symbol.cls).map fun _ => (t, id)
  | none => .ok (t.pushNamed symbol)

/-- The variable of this name, made on first mention. -/
def var (t : SymbolTable) (name : String) (cls : ValueClass) :
    Except SymbolError (SymbolTable × SymbolId) :=
  t.mention ⟨name, cls, .var⟩

/-- The machine register of this class and number, made on first mention. -/
def machineRegister (t : SymbolTable) (cls : ValueClass) (index : Nat) :
    Except SymbolError (SymbolTable × SymbolId) :=
  t.mention ⟨cls.machineRegister index, cls, .machineRegister index⟩

/-- The interned constant of this text and class. -/
def constant (t : SymbolTable) (text : String) (cls : ValueClass) : SymbolTable × SymbolId :=
  match t.constants.find? (·.1 == (text, cls)) with
  | some (_, id) => (t, id)
  | none =>
      let (grown, id) := t.push ⟨text, cls, .constant⟩
      ({ grown with constants := grown.constants ++ [((text, cls), id)] }, id)

/-- The address of a label, which may be mentioned any number of times, before its
definition too. -/
def address (t : SymbolTable) (name : String) : Except SymbolError (SymbolTable × SymbolId) :=
  match t.lookup name with
  | some id => if (t.get id).kind = .address then .ok (t, id) else .error (.notALabel name)
  | none => .ok (t.pushNamed ⟨name, .integer, .address⟩)

/-- Defines a label, once. An earlier mention is adopted. The table comes back next to a
refusal too, with the address if it was new. -/
def placeLabel (t : SymbolTable) (name : String) : SymbolTable × Except SymbolError SymbolId :=
  match t.address name with
  | .error e => (t, .error e)
  | .ok (t, id) =>
      if t.isDefinedLabel id then (t, .error (.redefined name))
      else ({ t with definedLabels := t.definedLabels ++ [id] }, .ok id)

/-- Defines a label or refuses it as a whole. -/
def defineLabel (t : SymbolTable) (name : String) : Except SymbolError (SymbolTable × SymbolId) :=
  match t.placeLabel name with
  | (_, .error e) => .error e
  | (t, .ok id) => .ok (t, id)

/-- The labels mentioned but never defined, in the order of their first mention. -/
def undefinedLabels (t : SymbolTable) : List (String × SymbolId) :=
  t.names.filter fun (_, id) => (t.get id).kind == .address && !t.isDefinedLabel id

/-- Drops the symbols from index `size` on, with all that leads to them. -/
def truncate (t : SymbolTable) (size : Nat) : SymbolTable where
  symbols := t.symbols.take size
  names := t.names.filter (·.2 < size)
  constants := t.constants.filter (·.2 < size)
  definedLabels := t.definedLabels.filter (· < size)

end SymbolTable

/-- One or more keys applied in turn, outermost container first. -/
structure KeyChain where
  first : SymbolId
  rest : List SymbolId := []
deriving DecidableEq, Repr

namespace KeyChain

def keys (chain : KeyChain) : List SymbolId := chain.first :: chain.rest

/-- The one operand that stands for the whole chain: a lone key is itself, several
are joined into a new symbol, constant if all of them are. -/
def collapse (chain : KeyChain) (t : SymbolTable) : SymbolTable × SymbolId :=
  match chain.rest with
  | [] => (t, chain.first)
  | _ :: _ =>
      let parts := chain.keys.map t.get
      let kind := if parts.all Symbol.isConstant then .constant else .var
      t.push ⟨String.intercalate ";" (parts.map Symbol.displayText), .aggregate, kind⟩

end KeyChain
end OpSelect
