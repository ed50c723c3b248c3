import ZX.Circuit.Basic
import ZX.Qasm.Check
import ZX.Qasm.Reader
import ZX.Qasm.Value

/-!
# From programs to circuits

Qubits are numbered over the quantum registers in order. A gate call is repeated over the elements
of its longest operand; operands with one element stay fixed. Gates with a body are expanded, the
others become gates of the circuit, which must not name a qubit twice. The only statements that a
circuit can hold are gate calls.
-/
namespace ZX.Qasm

/-- Consecutive bits. -/
structure BitRange where
  start : Nat
  size : Nat

/-- What the names in a statement stand for. -/
structure Environment where
  gates : List GateDefinition
  qubits : List (String × BitRange)
  parameters : List (String × Value)

namespace Environment

def operand (env : Environment) (o : Operand) : Value.Result BitRange :=
  match env.qubits.lookup o.register, o.index with
  | some r, none => return r
  | some r, some i => return ⟨r.start + i, 1⟩
  | none, _ => Value.failed

/-- The qubits of one repetition. -/
def select (operands : List BitRange) (repetition : Nat) : List Nat :=
  operands.map fun r => if r.size = 1 then r.start else r.start + repetition

def repetitions (operands : List BitRange) : Nat :=
  operands.foldl (fun n r => max n r.size) 0

/-- A gate that stands for itself. -/
def primitive (kind : GateKind) (parameters : List Value) (qubits : List Nat) :
    Value.Result (List Gate) := do
  if qubits.eraseDups.length ≠ qubits.length then
    Value.failed
  else
    match parameters with
    | [] => return [.plain kind qubits]
    | x :: _ => return [⟨kind, qubits, ← x.toPhase⟩]

/-- The gates of a statement, through at most so many levels of definitions. -/
def expand : Nat → Environment → Statement → Value.Result (List Gate)
  | 0, _, _ => Value.failed
  | depth + 1, env, s => do
      match s with
      | .call name parameters operands =>
          let values ← parameters.mapM (Expr.eval env.parameters)
          let ranges ← operands.mapM env.operand
          match findGate? env.gates name with
          | none => Value.failed
          | some d =>
              let blocks ← (List.range (repetitions ranges)).mapM fun k =>
                let qubits := select ranges k
                match d.body with
                | none => primitive (GateKind.ofName name) values qubits
                | some statements => do
                    let inner : Environment :=
                      ⟨env.gates, d.arguments.zip (qubits.map fun q => ⟨q, 1⟩),
                        d.parameters.zip values⟩
                    return (← statements.mapM (expand depth inner)).flatten
              return blocks.flatten
      | .controlledNot control target =>
          let ranges ← [control, target].mapM env.operand
          let blocks ← (List.range (repetitions ranges)).mapM fun k =>
            primitive .cnot [] (select ranges k)
          return blocks.flatten
      | .unitary theta phi lambda _ =>
          let _ ← [theta, phi, lambda].mapM (Expr.eval env.parameters)
          Value.failed
      | .condition _ _ _ => throw (.fault .unsupported)
      | .measure _ _ | .reset _ | .barrier _ => Value.failed

end Environment

namespace Program

/-- Registers laid out one behind the other from a start, with the position behind the last one,
which has to be a word. -/
def layout : Nat → List Register → Except Fault (List (String × BitRange) × Nat)
  | start, [] => return ([], start)
  | start, r :: rs => do
      let (ranges, total) ← layout (← nat64 (start + r.size)) rs
      return ((r.name, ⟨start, r.size⟩) :: ranges, total)

/-- The table of the names of so many bits. -/
def checkNames (bits : Nat) : Except Fault Unit := checkTable bits 32

/-- The circuit of a well-formed program. A program without statements has no qubits; with the
first statement all quantum and classical bits get a name. -/
def toCircuit (p : Program) : Value.Result Circuit := do
  let (qubits, width) ←
    Value.unchecked (layout 0 (p.registers.filter (·.kind = .quantum)))
  let (_, bits) ← Value.unchecked (layout 0 (p.registers.filter (·.kind = .classical)))
  match p.statements with
  | [] => return Circuit.empty 0
  | statements =>
      Value.unchecked (checkNames width)
      Value.unchecked (checkNames bits)
      let gates := p.gates
      let env : Environment := ⟨gates, qubits, []⟩
      let blocks ← statements.mapM (env.expand (gates.length + 1))
      return { Circuit.empty width with gates := blocks.flatten }

/-- The gates that every program knows. -/
def standardGates : List Declaration :=
  let one := ["q"]
  let two := ["a", "b"]
  let three := ["a", "b", "c"]
  [ .gate ⟨"rz", ["phase"], one, none⟩, .gate ⟨"rx", ["phase"], one, none⟩,
    .gate ⟨"x", [], one, none⟩, .gate ⟨"z", [], one, none⟩, .gate ⟨"s", [], one, none⟩,
    .gate ⟨"t", [], one, none⟩, .gate ⟨"sdg", [], one, none⟩, .gate ⟨"tdg", [], one, none⟩,
    .gate ⟨"h", [], one, none⟩, .gate ⟨"cx", [], two, none⟩, .gate ⟨"cz", [], two, none⟩,
    .gate ⟨"ccx", [], three, none⟩, .gate ⟨"ccz", [], three, none⟩,
    .gate ⟨"swap", [], two, none⟩ ]

end Program

/-- Reads a circuit; the standard gates are defined behind the text. -/
def readCircuit (headerRequired : Bool) (source : String) : Value.Result Circuit := do
  let program ← (Program.read headerRequired source).mapError fun e => .errors [e]
  let program : Program := program ++ Program.standardGates
  match ← Value.unchecked program.errors with
  | [] => program.toCircuit
  | es => throw (.errors es)

/-- The text of a file as it is read: line ends are line feeds, and an empty file is a blank. -/
def normaliseFile (source : String) : String :=
  if source.isEmpty then " " else "\n".intercalate (source.splitOn "\r\n")

end ZX.Qasm

namespace ZX

/-- Reads a circuit from a text; the version line may be missing. -/
def Circuit.ofQasm (source : String) : Except Qasm.Failure Circuit := Qasm.readCircuit false source

/-- Reads a circuit from the contents of a file, which starts with the version line. -/
def Circuit.ofQasmFile (source : String) : Except Qasm.Failure Circuit :=
  Qasm.readCircuit true (Qasm.normaliseFile source)

end ZX
