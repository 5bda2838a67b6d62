/-!
Command line arguments. Options may stand before or after the positional argument, and
their values may be joined to them. After `--` everything is positional.
-/

namespace OpSelect.CommandLine

inductive Emit where
  | listing
  | json
deriving DecidableEq, Repr

structure SelectOptions where
  input : String
  output : Option String := none
  emit : Emit := .listing
  config : Option String := none
  catalog : Option String := none
deriving DecidableEq, Repr

structure OpsOptions where
  mnemonic : Option String := none
  types : Bool := false
  catalog : Option String := none
deriving DecidableEq, Repr

inductive Command where
  | overview
  | help
  | version
  | select (options : SelectOptions)
  | ops (options : OpsOptions)
deriving DecidableEq, Repr

/-- The files that a command may read. -/
def Command.files : Command → List String
  | overview | help | version => []
  | select options => options.catalog.toList ++ options.config.toList ++ [options.input]
  | ops options => options.catalog.toList

inductive UsageError where
  | unexpected (argument : String)
  | missingValue (option : String)
  | unexpectedValue (option : String)
  | repeated (option : String)
  | emptyValue (argument : String)
  | badValue (option value : String)
  | missingInput
deriving DecidableEq, Repr

def UsageError.message : UsageError → String
  | unexpected argument => s!"unexpected argument '{argument}' found"
  | missingValue option => s!"a value is required for '{option}' but none was supplied"
  | unexpectedValue option => s!"unexpected value for '{option}' found; no more were expected"
  | repeated option => s!"the argument '{option}' cannot be used multiple times"
  | emptyValue argument => s!"a value is required for '{argument}' but none was supplied"
  | badValue option value => s!"invalid value '{value}' for '{option}'"
  | missingInput => "the following required arguments were not provided: <INPUT>"

/-- An option that a command knows, by its long name and perhaps a letter. -/
structure OptionSpec where
  name : String
  letter : Option Char := none
  takesValue : Bool := true
deriving DecidableEq, Repr

/-- Asks for help, in every command. -/
def OptionSpec.help : OptionSpec := ⟨"help", some 'h', false⟩

/-- The arguments of a command, sorted. -/
structure Arguments where
  positionals : List String := []
  options : List (String × String) := []
  help : Bool := false
deriving DecidableEq, Repr

namespace Arguments

/-- Whether an argument is written as an option. A lone dash is not. -/
def isOption (argument : String) : Bool := argument.startsWith "-" && argument != "-"

/-- Splits `name=value`. -/
def splitValue (text : List Char) : String × Option String :=
  let name := text.takeWhile (· != '=')
  match text.drop name.length with
  | [] => (String.ofList name, none)
  | _ :: value => (String.ofList name, some (String.ofList value))

/-- What an argument is, on its own. -/
inductive Piece where
  | rest
  | positional
  | help
  | option (name value : String)
  | awaiting (name : String)
deriving DecidableEq, Repr

/-- An option written out, with the value after its equals sign. A switch takes none. -/
def Piece.ofSpec (spec : OptionSpec) : Option String → Except UsageError Piece
  | none =>
      .ok (if spec.takesValue then .awaiting spec.name
        else if spec.name = "help" then .help else .option spec.name "")
  | some value =>
      if spec.takesValue then .ok (.option spec.name value)
      else .error (.unexpectedValue spec.name)

/-- A value may be joined to an option's letter, with or without an equals sign. What
follows the letter of a switch is not looked at. -/
def Piece.ofLetter (spec : OptionSpec) (text : List Char) : Except UsageError Piece :=
  match spec.takesValue, text with
  | false, _ | true, [] => ofSpec spec none
  | true, '=' :: value => ofSpec spec (some (String.ofList value))
  | true, value => ofSpec spec (some (String.ofList value))

def Piece.ofArgument (specs : List OptionSpec) (argument : String) : Except UsageError Piece :=
  let named (found : Option OptionSpec) (read : OptionSpec → Except UsageError Piece) :=
    match found with
    | some spec => read spec
    | none => .error (.unexpected argument)
  match argument.toList with
  | ['-', '-'] => .ok .rest
  | '-' :: '-' :: text =>
      let (name, value) := splitValue text
      named (specs.find? (·.name == name)) (ofSpec · value)
  | '-' :: letter :: text =>
      named (specs.find? (·.letter == some letter)) (ofLetter · text)
  | _ => .ok .positional

/-- Records an option, which may be given once. -/
def record (a : Arguments) (name value : String) : Except UsageError Arguments :=
  if a.options.any (·.1 == name) then .error (.repeated name)
  else .ok { a with options := a.options ++ [(name, value)] }

/-- Sorts arguments into options and positionals. A request for help ends the sorting. -/
def sort (specs : List OptionSpec) : List String → Arguments → Except UsageError Arguments
  | [], a => .ok a
  | argument :: others, a =>
      match Piece.ofArgument specs argument with
      | .error error => .error error
      | .ok .rest => .ok { a with positionals := a.positionals ++ others }
      | .ok .positional => sort specs others { a with positionals := a.positionals ++ [argument] }
      | .ok .help => .ok { a with help := true }
      | .ok (.option name value) =>
          match a.record name value with
          | .error error => .error error
          | .ok a => sort specs others a
      | .ok (.awaiting name) =>
          match others with
          | [] => .error (.missingValue name)
          | value :: others =>
              if isOption value then .error (.missingValue name)
              else match a.record name value with
                | .error error => .error error
                | .ok a => sort specs others a

def value? (a : Arguments) (name : String) : Option String :=
  (a.options.find? (·.1 == name)).map Prod.snd

/-- The value of an option that names a file, which cannot be empty. -/
def path? (a : Arguments) (name : String) : Except UsageError (Option String) :=
  match a.value? name with
  | some "" => .error (.emptyValue name)
  | value => .ok value

/-- The positional argument, if there is one; there are never more. -/
def positional? (a : Arguments) : Except UsageError (Option String) :=
  match a.positionals with
  | [] => .ok none
  | [argument] => .ok (some argument)
  | _ :: argument :: _ => .error (.unexpected argument)

end Arguments

def parseEmit : Option String → Except UsageError Emit
  | none => .ok .listing
  | some "listing" => .ok .listing
  | some "json" => .ok .json
  | some value => .error (.badValue "emit" value)

def parseSelect (arguments : List String) : Except UsageError Command := do
  let specs : List OptionSpec :=
    [.help, ⟨"output", some 'o', true⟩, ⟨"emit", none, true⟩, ⟨"config", none, true⟩,
      ⟨"catalog", none, true⟩]
  let a ← Arguments.sort specs arguments {}
  let input ← a.positional?
  let output ← a.path? "output"
  let emit ← parseEmit (a.value? "emit")
  let config ← a.path? "config"
  let catalog ← a.path? "catalog"
  match input with
  | some "" => .error (.emptyValue "INPUT")
  | some input => return if a.help then .help else .select { input, output, emit, config, catalog }
  | none => if a.help then return .help else .error .missingInput

def parseOps (arguments : List String) : Except UsageError Command := do
  let specs : List OptionSpec := [.help, ⟨"types", none, false⟩, ⟨"catalog", none, true⟩]
  let a ← Arguments.sort specs arguments {}
  let mnemonic ← a.positional?
  let catalog ← a.path? "catalog"
  return if a.help then .help else .ops { mnemonic, types := (a.value? "types").isSome, catalog }

/-- `help`, perhaps for a command. -/
def parseHelp : List String → Except UsageError Command
  | [] => .ok .help
  | [command] =>
      if ["select", "ops", "help"].contains command then .ok .help
      else .error (.unexpected command)
  | _ :: argument :: _ => .error (.unexpected argument)

/-- What a lone input file asks for. -/
def selectInput (input : String) : Except UsageError Command :=
  if input.isEmpty then .error (.emptyValue "INPUT") else .ok (.select { input })

/-- Reads the arguments up to a command's name, which takes the rest. -/
def parseFrom (input : Option String) : List String → Except UsageError Command
  | [] =>
      match input with
      | none => .ok .overview
      | some input => selectInput input
  | argument :: rest =>
      if argument = "select" then parseSelect rest
      else if argument = "ops" then parseOps rest
      else if argument = "help" then parseHelp rest
      else match Arguments.Piece.ofArgument [.help, ⟨"version", some 'V', false⟩] argument with
        | .error error => .error error
        | .ok .help => .ok .help
        | .ok .rest =>
            match input.toList ++ rest with
            | [] => .ok .overview
            | [input] => selectInput input
            | _ :: extra :: _ => .error (.unexpected extra)
        | .ok .positional =>
            match input with
            | some _ => .error (.unexpected argument)
            | none =>
                if argument.isEmpty then .error (.emptyValue "INPUT")
                else parseFrom (some argument) rest
        | .ok _ => .ok .version

/-- The command that the arguments ask for. -/
def parse (arguments : List String) : Except UsageError Command := parseFrom none arguments

end OpSelect.CommandLine
