/-!
The opcode catalog: an ordered table of operations under their mangled names, and
the numbers of the aggregate types. A catalog only grows. An extension adds its
operations in order and then its types, and stops at the first that is refused; what
it added before stays.
-/

namespace OpSelect

/-- How an operation uses an operand. -/
inductive Direction where
  | input
  | output
  | inOut
deriving DecidableEq, Repr

namespace Direction

def reads : Direction → Bool
  | input | inOut => true
  | output => false

def writes : Direction → Bool
  | output | inOut => true
  | input => false

end Direction

/-- The catalog name of an operation: its mnemonic and its operands' tags, joined by
underscores. -/
def fullName (mnemonic : String) (tags : List String) : String :=
  tags.foldl (fun name tag => name ++ "_" ++ tag) mnemonic

/-- The operand tags that a catalog entry may use. -/
def validTags : List String := ["i", "ic", "n", "nc", "s", "sc", "p", "k", "kc", "ki", "kic"]

def isValidTag (tag : String) : Bool := validTags.contains tag

/-- An operation as it is described for the catalog. -/
structure OpSpec where
  mnemonic : String
  args : List (String × Direction) := []
  jump : Bool := false
deriving DecidableEq, Repr

def OpSpec.name (op : OpSpec) : String := fullName op.mnemonic (op.args.map Prod.fst)

/-- An operation in the catalog. Its opcode is its place in the table. -/
structure OpEntry where
  opcode : Nat
  mnemonic : String
  fullName : String
  directions : List Direction
  jump : Bool
deriving DecidableEq, Repr

/-- Operations and aggregate types to be added to a catalog. -/
structure Extension where
  ops : List OpSpec := []
  types : List (String × Int) := []
deriving DecidableEq, Repr

inductive CatalogError where
  | duplicateOp (name : String)
  | duplicateType (name : String)
  | invalidTag (mnemonic tag : String)
deriving DecidableEq, Repr

def CatalogError.message : CatalogError → String
  | duplicateOp name => s!"op '{name}' is already defined in the catalog"
  | duplicateType name => s!"aggregate type '{name}' is already defined in the catalog"
  | invalidTag mnemonic tag => s!"op '{mnemonic}' uses unknown operand tag '{tag}'"

structure Catalog where
  entries : List OpEntry := []
  types : List (String × Int) := []
deriving DecidableEq, Repr, Inhabited

namespace Catalog

def lookup (c : Catalog) (name : String) : Option OpEntry := c.entries.find? (·.fullName == name)

def typeId (c : Catalog) (name : String) : Option Int :=
  (c.types.find? (·.1 == name)).map Prod.snd

def byMnemonic (c : Catalog) (mnemonic : String) : List OpEntry :=
  c.entries.filter (·.mnemonic == mnemonic)

/-- The aggregate types by number, and by name where numbers are equal. -/
def sortedTypes (c : Catalog) : List (String × Int) :=
  c.types.mergeSort fun (name₁, id₁) (name₂, id₂) =>
    id₁ < id₂ || (id₁ == id₂ && !(name₂ < name₁))

/-- Puts an operation at the end of the table. -/
def insert (c : Catalog) (op : OpSpec) : Catalog :=
  { c with entries := c.entries ++
      [⟨c.entries.length, op.mnemonic, op.name, op.args.map Prod.snd, op.jump⟩] }

/-- An operation is refused for a bad tag, and then for a name that is taken. -/
def addOp (c : Catalog) (op : OpSpec) : Except CatalogError Catalog :=
  match op.args.find? (fun arg => !isValidTag arg.1) with
  | some (tag, _) => .error (.invalidTag op.mnemonic tag)
  | none =>
      if (c.lookup op.name).isSome then .error (.duplicateOp op.name)
      else .ok (c.insert op)

def addType (c : Catalog) (type : String × Int) : Except CatalogError Catalog :=
  if (c.typeId type.1).isSome then .error (.duplicateType type.1)
  else .ok { c with types := c.types ++ [type] }

/-- Adds items in order up to the first that is refused. -/
def addEach {α : Type} (add : Catalog → α → Except CatalogError Catalog) :
    Catalog → List α → Catalog × Except CatalogError Unit
  | c, [] => (c, .ok ())
  | c, item :: items =>
      match add c item with
      | .error e => (c, .error e)
      | .ok c => addEach add c items

/-- The catalog after an extension, with what stopped it. -/
def extend (c : Catalog) (extension : Extension) : Catalog × Except CatalogError Unit :=
  match addEach addOp c extension.ops with
  | (c, .error e) => (c, .error e)
  | (c, .ok ()) => addEach addType c extension.types

/-- The extended catalog, if the whole extension is accepted. -/
def extended (c : Catalog) (extension : Extension) : Except CatalogError Catalog :=
  match c.extend extension with
  | (_, .error e) => .error e
  | (c, .ok ()) => .ok c

end Catalog
end OpSelect
