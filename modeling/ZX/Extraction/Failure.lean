import ZX.Circuit.Basic
import ZX.Decimal.Shortest
import ZX.Diagram.Basic
import ZX.Journal

/-!
# How an extraction can end

Extraction works on a diagram, the circuit behind it and the frontier between the two. It can stop
with a failure, which leaves these three as they were at that moment, or with a fault, which leaves
nothing.
-/
namespace ZX

/-- Reasons why a diagram has the wrong shape. -/
inductive Misfit where
  | inputDegree (input degree : Nat)
  | outputNeighbours (output : Nat)
  | outputWithoutSpider (output : Nat)
  | sharedSpider (v : Nat)
  | connectedFrontier (v w : Nat)
  | strayBoundary (w : Nat)
  | inputNeighbours (input : Nat)
  | notPermutation
  | tooNarrow (outputs width : Nat)
deriving DecidableEq, Repr

def Misfit.message : Misfit → String
  | .inputDegree b d => s!"input {b} has degree {d}"
  | .outputNeighbours o => s!"output {o} does not have exactly one neighbour"
  | .outputWithoutSpider o => s!"output {o} is not connected to a spider"
  | .sharedSpider v => s!"two outputs connected to a single vertex {v}"
  | .connectedFrontier v w => s!"frontier vertices {v} and {w} are connected"
  | .strayBoundary w => s!"vertex {w} behind the frontier is neither a spider nor an input"
  | .inputNeighbours b => s!"input {b} does not have exactly one neighbour"
  | .notPermutation => "inputs are not connected by a permutation"
  | .tooNarrow k n => s!"{k} outputs do not fit on {n} qubits"

inductive ExtractionFailure where
  /-- Two rounds in a row found nothing to extract, or the allowance of rounds is used up. -/
  | stalled (rounds remaining : Nat)
  | misfit (reason : Misfit)
deriving DecidableEq, Repr

def ExtractionFailure.message : ExtractionFailure → String
  | .stalled rounds remaining =>
      s!"extraction stalled after {rounds} rounds with {remaining} vertices left"
  | .misfit reason => "cannot extract circuit: " ++ reason.message

/-- A position on the frontier: a qubit and the vertex that ends its wire. -/
abbrev FrontierEntry := Nat × Nat

structure Workspace where
  diagram : Diagram
  circuit : Circuit
  /-- By increasing qubit. -/
  frontier : List FrontierEntry

inductive Halt where
  | fault (f : Fault)
  | failure (e : ExtractionFailure) (left : Workspace)

/-- Steps of an extraction. -/
abbrev Extraction := Run Halt

instance : MonadLift (Except Fault) Extraction :=
  ⟨fun x => Run.ofExcept (x.mapError .fault)⟩

instance : MonadLift (Run Fault) Extraction := ⟨Run.mapError .fault⟩

namespace Workspace

def refuse {α : Type} (w : Workspace) (reason : Misfit) : Extraction α :=
  throw (.failure (.misfit reason) w)

/-- The qubit whose wire ends in a vertex. -/
def frontierQubit? (w : Workspace) (v : Nat) : Option Nat :=
  (w.frontier.find? (·.2 = v)).map Prod.fst

def emit (w : Workspace) (gate : Gate) : Workspace := { w with circuit := w.circuit.pushFront gate }

/-- Vertices by their qubit line, those on one line by number. -/
def sortByQubit (g : Diagram) (vs : List Nat) : Except Fault (List Nat) := do
  let keyed ← vs.mapM fun v => return (Decimal.orderKey (← g.qubit v), v)
  let sorted := keyed.mergeSort fun a b => a.1 < b.1 || (a.1 = b.1 && a.2 ≤ b.2)
  return sorted.map Prod.snd

end Workspace

end ZX
