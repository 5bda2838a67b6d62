import OpSelect.ObjectText.Reader
import OpSelect.Text.Blank

/-!
Settings of the selector.
-/

namespace OpSelect

open ObjectText

/-- `maxArity` bounds the operands of an instruction, keys counted. `initType` is the
aggregate type that the destination of an expanded operation starts out with. -/
structure Config where
  maxArity : Nat := 4
  initType : String := "Undef"
deriving DecidableEq, Repr, Inhabited

inductive ConfigError where
  | malformed
  | arityOutOfRange (value : Nat)
  | emptyInitType
deriving DecidableEq, Repr

/-- The most operands that a setting can allow. -/
def arityLimit : Nat := 16

def ConfigError.message : ConfigError → String
  | malformed => "invalid selector config"
  | arityOutOfRange value => s!"max_arity must be between 1 and {arityLimit}, got {value}"
  | emptyInitType => "init_type must not be empty"

namespace Config

def validate (c : Config) : Except ConfigError Unit :=
  if c.maxArity < 1 ∨ arityLimit < c.maxArity then .error (.arityOutOfRange c.maxArity)
  else if Text.allBlank c.initType then .error .emptyInitType
  else .ok ()

/-- The settings read so far. -/
structure Draft where
  maxArity : Option Nat := none
  initType : Option String := none

/-- There are no settings but these. -/
def Draft.field (name : String) (draft : Draft) : Reader Draft :=
  match name with
  | "max_arity" =>
      (Reader.unsigned.once draft.maxArity).map fun value => { draft with maxArity := some value }
  | "init_type" =>
      (Reader.text.once draft.initType).map fun value => { draft with initType := some value }
  | _ => Reader.refuse

/-- Settings as written. Those left out have their default. -/
def reader : Reader Config :=
  (Reader.record "SelectorConfig" Draft.field {}).map fun draft =>
    let default : Config := {}
    { maxArity := draft.maxArity.getD default.maxArity
      initType := draft.initType.getD default.initType }

/-- Reads settings and validates them. -/
def ofText (source : String) : Except ConfigError Config := do
  match reader.read source with
  | none => throw .malformed
  | some config =>
      config.validate
      return config

end Config
end OpSelect
