/-!
# Arguments of the command line

Two commands read a circuit: `extract` simplifies and extracts it, `stats` counts its gates. A flag
with a value takes it from the same argument, behind an equals sign, or from the next argument. A
value is judged only when the argument behind it turns out to be known, or at the end.
-/
namespace ZX.CommandLine

-- Powers of numbers are those of the core library.
attribute [local instance(high)] instPowNat

/-- Why no command runs. -/
inductive Usage where
  | unknownArgument
  | invalidValue
  | malformedValue
  | surplusValue
  | missingArgument
  | unknownCommand
  | repeatedArgument
  | help
  | version
  | missingCommand
deriving DecidableEq, Repr

inductive Flag where
  | out
  | noSimp
  | upToPerm
  | maxRounds
  | skipCleanup
  | basic
deriving DecidableEq, Repr

def Flag.long : Flag → String
  | .out => "out"
  | .noSimp => "no-simp"
  | .upToPerm => "up-to-perm"
  | .maxRounds => "max-rounds"
  | .skipCleanup => "skip-cleanup"
  | .basic => "basic"

def Flag.short : Flag → Option Char
  | .out => some 'o'
  | _ => none

def Flag.takesValue : Flag → Bool
  | .out | .maxRounds => true
  | _ => false

/-- What the arguments so far have set. -/
structure Given where
  input : Option String := none
  out : Option String := none
  maxRounds : Option Nat := none
  flags : List Flag := []

/-- An argument whose value is not judged yet. -/
inductive Pending where
  | input (value : String)
  | flag (f : Flag) (value : Option String)

/-- A decimal number of at most 64 bits, with an optional plus sign. -/
def count? (s : String) : Option Nat :=
  let digits :=
    match s.toList with
    | '+' :: rest => rest
    | cs => cs
  if digits.isEmpty || !digits.all Char.isDigit then none
  else
    let n := digits.foldl (fun n c => 10 * n + (c.toNat - '0'.toNat)) 0
    if n < 2 ^ (64 : Nat) then some n else none

namespace Given

def path (value : String) : Except Usage String :=
  if value.isEmpty then .error .invalidValue else .ok value

/-- Records a flag that must not have been given before. -/
def mark (g : Given) (f : Flag) : Except Usage Given :=
  if g.flags.contains f then .error .repeatedArgument else .ok { g with flags := f :: g.flags }

/-- Judges a value. -/
def settle (g : Given) : Option Pending → Except Usage Given
  | none => return g
  | some (.input value) => return { g with input := some (← path value) }
  | some (.flag _ none) => throw .invalidValue
  | some (.flag f (some value)) => do
      let g ← g.mark f
      match f with
      | .maxRounds =>
          match count? value with
          | some n => return { g with maxRounds := some n }
          | none => throw .malformedValue
      | _ => return { g with out := some (← path value) }

/-- A cluster of short flags, of which one with a value takes the rest. -/
def cluster (g : Given) (known : List Flag) (pending : Option Pending) :
    List Char → Except Usage (Given × Option Pending)
  | [] => return (g, pending)
  | 'h' :: _ => do
      let _ ← g.settle pending
      throw .help
  | c :: rest => do
      match known.find? (·.short = some c) with
      | none => throw .unknownArgument
      | some f =>
          let g ← g.settle pending
          if f.takesValue then
            match rest with
            | [] => return (g, some (.flag f none))
            | '=' :: value => return (← g.settle (some (.flag f (some (String.ofList value)))), none)
            | value => return (← g.settle (some (.flag f (some (String.ofList value)))), none)
          else
            (← g.mark f).cluster known none rest

/-- A long flag, with the value behind its equals sign. -/
def long (g : Given) (known : List Flag) (pending : Option Pending) (name : String)
    (value : Option String) : Except Usage (Given × Option Pending) := do
  if name = "help" then
    if value.isSome then
      throw .surplusValue
    else
      let _ ← g.settle pending
      throw .help
  else
    match known.find? (·.long = name) with
    | none => throw .unknownArgument
    | some f =>
        if f.takesValue then
          let g ← g.settle pending
          match value with
          | some v => return (← g.settle (some (.flag f (some v))), none)
          | none => return (g, some (.flag f none))
        else if value.isSome then
          throw .surplusValue
        else
          return (← (← g.settle pending).mark f, none)

/-- The name of a long flag and the value behind the first equals sign. -/
def splitLong (cs : List Char) : String × Option String :=
  match cs.dropWhile (· ≠ '=') with
  | _ :: value => (String.ofList (cs.takeWhile (· ≠ '=')), some (String.ofList value))
  | [] => (String.ofList cs, none)

/-- Reads the arguments of a command. After two dashes only the input can follow. -/
def read (known : List Flag) :
    Bool → Bool → Given → Option Pending → List String → Except Usage Given
  | _, _, g, pending, [] => g.settle pending
  | dashed, hasInput, g, pending, arg :: rest => do
      let positional : Except Usage Given := do
        if hasInput then
          throw .unknownArgument
        else
          read known dashed true (← g.settle pending) (some (.input arg)) rest
      if dashed then
        positional
      else
        match arg.toList with
        | ['-', '-'] => read known true hasInput g pending rest
        | '-' :: '-' :: cs =>
            let (name, value) := splitLong cs
            let (g, pending) ← g.long known pending name value
            read known false hasInput g pending rest
        | '-' :: c :: cs =>
            let (g, pending) ← g.cluster known pending (c :: cs)
            read known false hasInput g pending rest
        | _ =>
            match pending with
            | some (.flag f none) =>
                read known false hasInput g (some (.flag f (some arg))) rest
            | _ => positional

end Given

structure ExtractArguments where
  input : String
  out : Option String
  simplify : Bool
  upToPermutation : Bool
  maxRounds : Option Nat
  cleanup : Bool
deriving DecidableEq, Repr

inductive Command where
  | extract (arguments : ExtractArguments)
  | stats (input : String) (basic : Bool)
deriving DecidableEq, Repr

namespace Command

def readExtract (args : List String) : Except Usage Command := do
  let known : List Flag := [.out, .noSimp, .upToPerm, .maxRounds, .skipCleanup]
  let g ← Given.read known false false {} none args
  match g.input with
  | none => throw .missingArgument
  | some input =>
      return .extract
        ⟨input, g.out, !g.flags.contains .noSimp, g.flags.contains .upToPerm, g.maxRounds,
          !g.flags.contains .skipCleanup⟩

def readStats (args : List String) : Except Usage Command := do
  let g ← Given.read [.basic] false false {} none args
  match g.input with
  | none => throw .missingArgument
  | some input => return .stats input (g.flags.contains .basic)

/-- Help on a command, which itself has no commands. -/
def readHelp (args : List String) : Usage :=
  match args with
  | [] => .help
  | [name] => if ["extract", "stats", "help"].contains name then .help else .unknownCommand
  | _ => .unknownCommand

/-- Flags in front of a command. -/
def readFront (name : String) : Usage :=
  match name.toList with
  | '-' :: '-' :: cs =>
      let (flag, value) := Given.splitLong cs
      if flag = "help" ∨ flag = "version" then
        if value.isSome then .surplusValue else if flag = "help" then .help else .version
      else .unknownArgument
  | '-' :: 'h' :: _ => .help
  | '-' :: 'V' :: _ => .version
  | '-' :: _ :: _ => .unknownArgument
  | _ => .unknownCommand

def read (args : List String) : Except Usage Command :=
  match args with
  | [] => .error .missingCommand
  | "extract" :: rest => readExtract rest
  | "stats" :: rest => readStats rest
  | "help" :: rest => .error (readHelp rest)
  | ["--"] => .error .missingCommand
  | "--" :: name :: _ =>
      .error (if ["extract", "stats", "help"].contains name then .unknownArgument
        else .unknownCommand)
  | name :: _ => .error (readFront name)

end Command

end ZX.CommandLine
