import OpSelect.Catalog.Basic
import OpSelect.ObjectText.Reader

/-!
Catalog extensions written as object texts. Fields that mean nothing here are passed
over.
-/

namespace OpSelect

open ObjectText

def Direction.ofWord? : String → Option Direction
  | "In" => some .input
  | "Out" => some .output
  | "InOut" => some .inOut
  | _ => none

namespace Extension

/-- An operand read so far. -/
structure ArgDraft where
  tag : Option String := none
  dir : Option Direction := none

def ArgDraft.field (name : String) (draft : ArgDraft) : Reader ArgDraft :=
  match name with
  | "tag" => (Reader.text.once draft.tag).map fun value => { draft with tag := some value }
  | "dir" =>
      ((Reader.word Direction.ofWord?).once draft.dir).map fun value =>
        { draft with dir := some value }
  | _ => Reader.anything.map fun _ => draft

/-- An operand's tag and direction. -/
def arg : Reader (String × Direction) :=
  (Reader.record "ArgSpec" ArgDraft.field {}).filterMap fun draft =>
    return (← draft.tag, ← draft.dir)

/-- An operation read so far. -/
structure OpDraft where
  mnemonic : Option String := none
  args : Option (List (String × Direction)) := none
  jump : Option Bool := none

def OpDraft.field (name : String) (draft : OpDraft) : Reader OpDraft :=
  match name with
  | "mnemonic" =>
      (Reader.text.once draft.mnemonic).map fun value => { draft with mnemonic := some value }
  | "args" => (arg.list.once draft.args).map fun value => { draft with args := some value }
  | "jump" => (Reader.boolean.once draft.jump).map fun value => { draft with jump := some value }
  | _ => Reader.anything.map fun _ => draft

def op : Reader OpSpec :=
  (Reader.record "OpEntry" OpDraft.field {}).filterMap fun draft => do
    let mnemonic ← draft.mnemonic
    return { mnemonic, args := draft.args.getD [], jump := draft.jump.getD false }

/-- An aggregate type read so far. -/
structure TypeDraft where
  name : Option String := none
  id : Option Int := none

def TypeDraft.field (name : String) (draft : TypeDraft) : Reader TypeDraft :=
  match name with
  | "name" => (Reader.text.once draft.name).map fun value => { draft with name := some value }
  | "id" => (Reader.signed.once draft.id).map fun value => { draft with id := some value }
  | _ => Reader.anything.map fun _ => draft

/-- An aggregate type's name and number. -/
def type : Reader (String × Int) :=
  (Reader.record "AggregateTypeEntry" TypeDraft.field {}).filterMap fun draft =>
    return (← draft.name, ← draft.id)

/-- An extension read so far. -/
structure Draft where
  ops : Option (List OpSpec) := none
  types : Option (List (String × Int)) := none

def Draft.field (name : String) (draft : Draft) : Reader Draft :=
  match name with
  | "ops" => (op.list.once draft.ops).map fun value => { draft with ops := some value }
  | "aggregate_types" =>
      (type.list.once draft.types).map fun value => { draft with types := some value }
  | _ => Reader.anything.map fun _ => draft

def reader : Reader Extension :=
  (Reader.record "CatalogFile" Draft.field {}).map fun draft =>
    { ops := draft.ops.getD [], types := draft.types.getD [] }

def ofText? (source : String) : Option Extension := reader.read source

end Extension
end OpSelect
