import ZX.Circuit.Diagram
import ZX.Diagram.Dot
import ZX.Extraction.Round
import ZX.Rule.Cleanup
import ZX.Simplify
import Std.Data.HashSet

/-!
# Circuit extraction

`Diagram.extract` turns a diagram into a circuit, from the outputs back to the inputs. After the
frontier is prepared, rounds run until every vertex has been visited; two rounds in a row without a
new vertex mean that the diagram is stuck. What is left between the frontier and the inputs is a
permutation, which becomes controlled nots. The phase of the scalar becomes the global phase.
-/
namespace ZX

structure ExtractionOptions where
  /-- Width of the circuit; zero stands for one qubit per output. -/
  width : Nat := 0
  /-- Leave the final permutation of the inputs in the diagram. -/
  upToPermutation : Bool := false
  maxRounds : Option Nat := none
  cleanup : Bool := true

namespace Workspace

def remaining (g : Diagram) (visited : Std.HashSet Nat) : Nat :=
  g.vertices.countP fun v => !visited.contains v

/-- Adds the vertices that were not visited yet and counts them. -/
def visit (visited : Std.HashSet Nat) (vs : List Nat) : Std.HashSet Nat × Nat :=
  vs.foldl (fun (seen, n) v => if seen.contains v then (seen, n) else (seen.insert v, n + 1))
    (visited, 0)

/-- Frontier, outputs and isolated spiders count as visited from the start. -/
def initiallyVisited (w : Workspace) : Std.HashSet Nat :=
  let isolated := w.diagram.vertices.filter fun v =>
    match w.diagram.vertex? v with
    | some x => x.links.isEmpty && x.data.kind ≠ .boundary
    | none => false
  Std.HashSet.ofList (w.frontier.map Prod.snd ++ w.diagram.outputs ++ isolated)

/-- Rounds until every vertex has been visited; returns their number. `idle` says whether the last
round found nothing. -/
def rounds (maxRounds : Option Nat) :
    Nat → Std.HashSet Nat → Nat → Bool → Workspace → Extraction (Nat × Workspace)
  | 0, _, _, _, _ => throw (.fault .exhausted)
  | fuel + 1, visited, done, idle, w => do
      let left := remaining w.diagram visited
      if left = 0 then
        return (done, w)
      else if maxRounds.any (· ≤ done) then
        Run.emit .trace ("round cap reached on:\n" ++ w.diagram.dot)
        throw (.failure (.stalled done left) w)
      else
        let (extracted, w) ← w.advance
        let done := done + 1
        let (visited, new) := visit visited extracted
        Run.emit .debug s!"round {done}: extracted {new}, {left} vertices were left"
        if new = 0 then
          if idle then
            Run.emit .trace ("stalled on:\n" ++ w.diagram.dot)
            throw (.failure (.stalled done left) w)
          else
            rounds maxRounds fuel visited done true w
        else
          rounds maxRounds fuel visited done false w

/-- The one neighbour of an input. -/
def inputNeighbour (w : Workspace) (b : Nat) : Extraction Nat := do
  match ← w.diagram.neighbours b with
  | [n] => return n
  | _ => w.refuse (.inputNeighbours b)

/-- Takes the steps of a permutation; an addition shows that there is none. -/
def permute (steps : List RowStep) (qubits : List Nat) (w : Workspace) : Extraction Workspace :=
  steps.foldlM (fun w step => do
    match step with
    | .add _ _ => w.refuse .notPermutation
    | .swap _ _ =>
        let gates ← step.apply (⟨w.circuit, qubits⟩ : FrontierGates)
        return { w with circuit := gates.circuit }) w

/-- Turns the wiring between the inputs and the frontier into swaps. Their matrix has an entry for
every pair of qubits. -/
def resolveInputs (w : Workspace) : Extraction Workspace := do
  let found ← w.diagram.inputs.mapM w.inputNeighbour
  let sorted ← sortByQubit w.diagram found
  ByteMatrix.checkSize sorted.length w.diagram.inputs.length
  let m ← w.diagram.biadjacency sorted w.diagram.inputs
  let (_, steps) ← m.eliminate
  permute steps (List.range sorted.length) w

/-- What is left to do once the rounds are over. -/
def close (options : ExtractionOptions) (count : Nat) (w : Workspace) :
    Extraction (Circuit × Diagram) := do
  let w ← if options.upToPermutation then pure w else w.resolveInputs
  let (_, c) ← if options.cleanup then liftM w.circuit.cleanup else pure (false, w.circuit)
  let c := { c with globalPhase := w.diagram.scalar.phase }
  Run.emit .debug s!"extracted {c.gates.length} gates in {count} rounds"
  return (c, w.diagram)

/-- What is left to do once the frontier stands. -/
def finish (options : ExtractionOptions) (w : Workspace) : Extraction (Circuit × Diagram) := do
  let (count, w) ←
    w.rounds options.maxRounds (2 * w.diagram.vertexCount + 3) w.initiallyVisited 0 false
  w.close options count

end Workspace

namespace Diagram

/-- The width of the circuit to extract. -/
def extractionWidth (g : Diagram) (options : ExtractionOptions) : Nat :=
  if options.width = 0 then g.outputs.length else options.width

/-- The state in which an extraction starts. -/
def extractionStart (g : Diagram) (options : ExtractionOptions) : Workspace :=
  ⟨g, Circuit.empty (g.extractionWidth options), []⟩

/-- The extracted circuit and what is left of the diagram. A diagram with different numbers of
inputs and outputs gives an empty circuit. -/
def extract (g : Diagram) (options : ExtractionOptions) (ops : Phase.Arithmetic := .words) :
    Extraction (Circuit × Diagram) := do
  let n := g.extractionWidth options
  let start := g.extractionStart options
  if g.inputs.length ≠ g.outputs.length then
    Run.emit .warn
      s!"cannot extract a diagram with {g.inputs.length} inputs and {g.outputs.length} outputs"
    return ({ start.circuit with globalPhase := g.scalar.phase }, g)
  else if n < g.outputs.length then
    start.refuse (.tooNarrow g.outputs.length n)
  else
    (← start.prepare ops).finish options

end Diagram

/-- Turns a circuit into a diagram, simplifies it and extracts a circuit of the same width. -/
def Circuit.optimise (c : Circuit) : Extraction Circuit := do
  let g ← c.toDiagram
  let (_, g) ← g.simplify
  return (← g.extract { width := c.width }).1

/-- Turns a circuit into a diagram and extracts it as it is. -/
def Circuit.roundTrip (c : Circuit) : Extraction Circuit := do
  let g ← c.toDiagram
  return (← g.extract {}).1

end ZX
