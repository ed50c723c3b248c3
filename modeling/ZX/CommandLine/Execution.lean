import ZX.Circuit.Stats
import ZX.CommandLine.Arguments
import ZX.Extraction.Basic
import ZX.Qasm.Expansion

/-!
# Running a command

A command turns the contents of its input file, or their absence, into a text and a place for it.
Reading and writing are left to the caller.
-/
namespace ZX.CommandLine

/-- What can go wrong when a file is written. -/
inductive FileProblem where
  | missing
  | isDirectory
  | notDirectory
  | denied
  | nameTooLong
  | noSpace
  /-- The name holds a character that no name can hold. -/
  | nulCharacter
  | other (description : String)
deriving DecidableEq, Repr

def FileProblem.message : FileProblem → String
  | .missing => "No such file or directory (os error 2)"
  | .isDirectory => "Is a directory (os error 21)"
  | .notDirectory => "Not a directory (os error 20)"
  | .denied => "Permission denied (os error 13)"
  | .nameTooLong => "File name too long (os error 36)"
  | .noSpace => "No space left on device (os error 28)"
  | .nulCharacter => "file name contained an unexpected NUL byte"
  | .other description => description

inductive CommandError where
  | file (problem : FileProblem)
  | circuit (es : List Qasm.Error)
  | extraction (e : ExtractionFailure)
  | fault (f : Fault)
deriving DecidableEq, Repr

def CommandError.message : CommandError → Option String
  | .file problem => "IO error: " ++ problem.message
  | .circuit es => "Error parsing input circuit: " ++ Qasm.Error.report es
  | .extraction e => "Extraction failed: " ++ e.message
  | .fault f => f.message

instance : MonadLift (Except Fault) (Run CommandError) :=
  ⟨fun x => Run.ofExcept (x.mapError .fault)⟩

instance : MonadLift (Run Fault) (Run CommandError) := ⟨Run.mapError .fault⟩

instance : MonadLift Extraction (Run CommandError) :=
  ⟨Run.mapError fun
    | .fault f => .fault f
    | .failure e _ => .extraction e⟩

instance : MonadLift (Except Qasm.Failure) (Run CommandError) :=
  ⟨fun x => Run.ofExcept (x.mapError fun
    | .errors es => .circuit es
    | .fault f => .fault f)⟩

/-- A text and the file it goes to, if it is not printed. -/
structure Output where
  text : String
  path : Option String
deriving DecidableEq, Repr

/-- The circuit of a file. -/
def readCircuit (contents : Option String) : Except Qasm.Failure Circuit :=
  match contents with
  | some source => Circuit.ofQasmFile source
  | none => .error (.errors [.unreadableFile])

def Command.input : Command → String
  | .extract a => a.input
  | .stats input _ => input

/-- A printed text ends its line. -/
def printed (text : String) : Output := ⟨text ++ "\n", none⟩

def runExtract (a : ExtractArguments) (contents : Option String) : Run CommandError Output := do
  let c ← readCircuit contents
  Run.emit .info ("read " ++ c.stats.render)
  let g ← c.toDiagram
  let (_, g) ← if a.simplify then liftM g.simplify else pure (false, g)
  Run.emit .info
    s!"diagram has {g.vertexCount} vertices, {g.edgeCount} edges, t-count {g.nonCliffordCount}"
  let options : ExtractionOptions :=
    { width := c.width, upToPermutation := a.upToPermutation, maxRounds := a.maxRounds,
      cleanup := a.cleanup }
  let (extracted, _) ← g.extract options
  Run.emit .info ("extracted " ++ extracted.stats.render)
  match a.out with
  | some path => return ⟨extracted.toQasm, some path⟩
  | none => return printed extracted.toQasm

def runStats (basic : Bool) (contents : Option String) : Run CommandError Output := do
  let c ← readCircuit contents
  let c ← if basic then liftM c.toBasic else pure c
  return printed c.stats.render

def Command.run (c : Command) (contents : Option String) : Run CommandError Output :=
  match c with
  | .extract a => runExtract a contents
  | .stats _ basic => runStats basic contents

end ZX.CommandLine
