import OpSelect.Catalog.BuiltIn
import OpSelect.Catalog.File
import OpSelect.CommandLine.Arguments
import OpSelect.Compile
import OpSelect.Json

/-!
What each command prints, given the contents of files.
-/

namespace OpSelect.CommandLine

/-- What a run leaves behind: an exit code, what is printed, and a file to be written. -/
structure Outcome where
  code : Nat := 0
  stdout : String := ""
  stderr : String := ""
  file : Option (String × String) := none
deriving DecidableEq, Repr

/-- The contents of a file, or why it cannot be read. -/
abbrev ReadFile := String → Except String String

namespace Outcome

/-- A run that ends in an error. -/
def failure (message : String) : Outcome := { code := 1, stderr := message ++ "\n" }

/-- What becomes of a run whose file cannot be written. -/
def writeFailure (o : Outcome) (path reason : String) : Outcome :=
  { code := 1, stderr := o.stderr ++ s!"failed to write '{path}': {reason}\n" }

end Outcome

def versionText : String := "0.1.0"

/-- Rows, each ended by a newline. -/
def lineBlock (rows : List String) : String := String.join (rows.map (· ++ "\n"))

def banner : String :=
  lineBlock
    [s!"imcc, version {versionText}.",
      "Instruction selection and keyed-operand lowering for a register VM.",
      "License: 0BSD - free to use, copy, modify, and distribute."]

def helpText : String :=
  lineBlock
    ["Instruction selection for register-VM intermediate code",
      "",
      "Usage: imcc [COMMAND] [INPUT]",
      "",
      "Commands:",
      "  select  Select instructions for a source file and print the result",
      "  ops     List opcode catalog entries",
      "  help    Print this message or the help of the given subcommand(s)",
      "",
      "Arguments:",
      "  [INPUT]  Input source file",
      "",
      "Options:",
      "  -h, --help     Print help",
      "  -V, --version  Print version",
      "",
      "Examples:",
      "  imcc path/to/unit.imc",
      "  imcc select path/to/unit.imc --emit json -o unit.json",
      "  imcc ops set",
      "  imcc --help"]

/-- What follows the last dot in a path's last part. A dot at the very front of the part
starts a name, not an extension. -/
def extension? (path : String) : Option String :=
  match ((path.splitOn "/").filter fun part => part != "" && part != ".").getLast? with
  | none => none
  | some ".." => none
  | some name =>
      let suffix := (name.toList.reverse.takeWhile (· != '.')).reverse
      if name.length ≤ suffix.length + 1 then none else some (String.ofList suffix)

/-- Source files are told by their extension, in any case of letters. -/
def isSourcePath (path : String) : Bool :=
  match extension? path with
  | some suffix => ["imc", "pir"].contains (suffix.map Char.toLower)
  | none => false

/-- The built-in catalog with the extension in a file, if one is given. -/
def loadCatalog (read : ReadFile) : Option String → Except String Catalog
  | none => .ok .builtIn
  | some path => do
      let text ← (read path).mapError fun reason => s!"failed to read catalog '{path}': {reason}"
      match Extension.ofText? text with
      | none => throw s!"failed to load catalog '{path}': invalid catalog file"
      | some extension =>
          (Catalog.builtIn.extended extension).mapError fun error =>
            s!"failed to merge catalog '{path}': {error.message}"

/-- The settings in a file, if one is given. -/
def loadConfig (read : ReadFile) : Option String → Except String Config
  | none => .ok {}
  | some path => do
      let text ← (read path).mapError fun reason => s!"failed to read config '{path}': {reason}"
      (Config.ofText text).mapError fun error =>
        s!"failed to load config '{path}': {error.message}"

/-- Compiles a source file. The result is its text in the form asked for, and the
warnings to be printed. -/
def compileFile (read : ReadFile) (options : SelectOptions) : Except String (String × String) := do
  let path := options.input
  if !isSourcePath path then
    throw s!"invalid input extension for '{path}': expected .imc or .pir source file"
  let catalog ← loadCatalog read options.catalog
  let config ← loadConfig read options.config
  let source ← (read path).mapError fun reason => s!"failed to read '{path}': {reason}"
  let file : SourceFile := ⟨path, source⟩
  let lowered ← (compile catalog config source).mapError (·.render file)
  let warnings := if lowered.warnings.isEmpty then ""
    else Report.renderAll file lowered.warnings ++ "\n"
  let text := match options.emit with
    | .listing => lowered.unit.listing
    | .json => lowered.unit.toJsonText
  return (text, warnings)

def runSelect (read : ReadFile) (options : SelectOptions) : Outcome :=
  match compileFile read options with
  | .error message => .failure message
  | .ok (text, stderr) =>
      match options.output with
      | some path => { stderr, file := some (path, text) }
      | none => { stderr, stdout := text }

/-- Puts a text at the right end of a column. -/
def padLeft (width : Nat) (text : String) : String :=
  String.ofList (List.replicate (width - text.length) ' ') ++ text

/-- Puts a text at the left end of a column. -/
def padRight (width : Nat) (text : String) : String :=
  text ++ String.ofList (List.replicate (width - text.length) ' ')

def describeDirection : Direction → String
  | .input => "in"
  | .output => "out"
  | .inOut => "inout"

def describeEntry (entry : OpEntry) : String :=
  let directions := String.intercalate "," (entry.directions.map describeDirection)
  padLeft 4 (toString entry.opcode) ++ "  " ++ padRight 24 entry.fullName ++ " (" ++ directions ++
    ")" ++ if entry.jump then " jump" else ""

def runOps (read : ReadFile) (options : OpsOptions) : Outcome :=
  match loadCatalog read options.catalog with
  | .error message => .failure message
  | .ok catalog =>
      if options.types then
        { stdout := lineBlock (catalog.sortedTypes.map fun (name, id) =>
            padLeft 4 (toString id) ++ "  " ++ name) }
      else match options.mnemonic with
        | none => { stdout := lineBlock (catalog.entries.map describeEntry) }
        | some mnemonic =>
            match catalog.byMnemonic mnemonic with
            | [] => .failure s!"no catalog entries for '{mnemonic}'"
            | entries => { stdout := lineBlock (entries.map describeEntry) }

/-- What a command does, given the files that it reads. -/
def Command.run (read : ReadFile) : Command → Outcome
  | overview => { stdout := banner ++ "\n" ++ helpText ++ "\n" }
  | help => { stdout := helpText }
  | version => { stdout := s!"imcc {versionText}\n" }
  | select options => runSelect read options
  | ops options => runOps read options

/-- A command line that asks for nothing known. -/
def UsageError.outcome (error : UsageError) : Outcome :=
  { code := 2, stderr := s!"error: {error.message}\n" }

end OpSelect.CommandLine
