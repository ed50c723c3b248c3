import ZX.CommandLine.Execution

/-!
# The program

Reads the file that a command names, runs the command, and prints or writes its text. A failed
command reports to the error stream and ends with status 1, a misused command line with status 2.
-/
namespace ZX.CommandLine

/-- The contents of a file that can be read. -/
def contents? (path : String) : IO (Option String) := do
  try
    return some (← IO.FS.readFile path)
  catch _ =>
    return none

def FileProblem.ofError : IO.Error → FileProblem
  | .noFileOrDirectory .. => .missing
  | .permissionDenied .. => .denied
  | .inappropriateType _ 20 _ => .notDirectory
  | .invalidArgument _ 36 _ => .nameTooLong
  | .resourceExhausted _ 28 _ => .noSpace
  | .inappropriateType .. => .isDirectory
  | e => .other (toString e)

/-- Prints a text or writes it to its file. -/
def Output.deliver (output : Output) : IO (Except CommandError Unit) := do
  match output.path with
  | none =>
      IO.print output.text
      return .ok ()
  | some path =>
      if path.contains '\x00' then return .error (.file .nulCharacter)
      try
        IO.FS.writeFile path output.text
        return .ok ()
      catch e =>
        return .error (.file (.ofError e))

def helpText : String :=
  "\n".intercalate
    [ "Extract circuits from ZX-diagrams",
      "",
      "Usage: zxtract <COMMAND>",
      "",
      "Commands:",
      "  extract  Simplify a circuit as a ZX-diagram and extract it again",
      "  stats    Print gate counts for a circuit",
      "  help     Print this message or the help of the given subcommand(s)",
      "",
      "Options:",
      "  -h, --help     Print help",
      "  -V, --version  Print version",
      "" ]

def versionText : String := "zxtract 0.1.0\n"

/-- Runs a command and returns the exit status. -/
def Command.execute (command : Command) : IO UInt32 := do
  let result ←
    match (command.run (← contents? command.input)).outcome with
    | .ok output => output.deliver
    | .error e => pure (.error e)
  match result with
  | .ok () => return 0
  | .error e =>
      IO.eprintln (e.message.getD "internal failure")
      return 1

end ZX.CommandLine

open ZX.CommandLine

def main (args : List String) : IO UInt32 := do
  match Command.read args with
  | .ok command => command.execute
  | .error .help =>
      IO.print helpText
      return 0
  | .error .version =>
      IO.print versionText
      return 0
  | .error _ =>
      IO.eprint helpText
      return 2
