import OpSelect.CommandLine.Run

/-!
The command line program: reads the files that the command names, runs it and carries
out what it leaves behind.
-/

open OpSelect

namespace OpSelect.CommandLine

/-- The system's own words for an error. -/
def systemMessage : IO.Error → String
  | .noFileOrDirectory _ code _ | .noSuchThing _ code _ =>
      s!"No such file or directory (os error {code})"
  | error => toString error

def readContents (path : String) : IO (String × Except String String) := do
  try
    let text ← IO.FS.readFile path
    return (path, .ok text)
  catch error => return (path, .error (systemMessage error))

/-- Writes the file that a run leaves behind, if it leaves one. -/
def writeOutcome (outcome : Outcome) : IO Outcome :=
  match outcome.file with
  | none => return outcome
  | some (path, text) => do
      try
        IO.FS.writeFile path text
        return outcome
      catch error => return outcome.writeFailure path (systemMessage error)

def execute (command : Command) : IO Outcome := do
  let files ← command.files.mapM readContents
  writeOutcome (command.run fun path =>
    (files.lookup path).getD (.error "No such file or directory (os error 2)"))

end OpSelect.CommandLine

def main (arguments : List String) : IO UInt32 := do
  let outcome ← match CommandLine.parse arguments with
    | .ok command => CommandLine.execute command
    | .error error => pure error.outcome
  IO.print outcome.stdout
  IO.eprint outcome.stderr
  return outcome.code.toUInt32
