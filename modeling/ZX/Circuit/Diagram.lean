import ZX.Circuit.Basic
import ZX.Diagram.Basic

/-!
# The diagram of a circuit

Every qubit starts as a plain wire from an input to an output. A gate turns the current output of
each of its qubits into a spider and plugs a fresh output in behind it. Two-qubit gates join their
spiders and cost a factor `sqrt(2)`; a swap only exchanges outputs. A gate on a qubit that the
diagram does not have leaves no spider.
-/
namespace ZX

namespace Diagram

/-- Turns the output of a qubit into a spider with a fresh output behind it. The wire in front of
the spider is toggled when the gate is a Hadamard. -/
def extendWire (g : Diagram) (qubit : Nat) (k : VertexKind) (wire : EdgeKind) (p : Phase) :
    Except Fault (Option Nat × Diagram) := do
  match g.outputs[qubit]? with
  | none => return (none, g)
  | some v =>
      let before := (← g.neighbours v).head?
      let column ← g.column v
      let g ← g.setKind v k
      let g ← g.setPhase v p
      let (out, g) ← g.addVertex ⟨.boundary, Phase.zero, Float.ofNat qubit, column + 1⟩
      let g ← g.addEdge v out .plain
      let g := { g with outputs := g.outputs.set qubit out }
      match wire, before with
      | .hadamard, some w => return (some v, ← g.toggleEdge v w)
      | _, _ => return (some v, g)

/-- The larger of two coordinates, or the one that is a number. -/
def laterColumn (x y : Float) : Float :=
  if x.isNaN then y else if y.isNaN then x else if x < y then y else x

/-- Puts the two spiders of a gate into one column, and the outputs behind them into the next. -/
def alignColumns (g : Diagram) (v1 v2 q1 q2 : Nat) : Except Fault Diagram := do
  let o1 ← at? g.outputs q1
  let o2 ← at? g.outputs q2
  let column := laterColumn (← g.column o1) (← g.column o2)
  let g ← g.setColumn v1 (column - 1)
  let g ← g.setColumn v2 (column - 1)
  let g ← g.setColumn o1 column
  g.setColumn o2 column

/-- Two joined spiders on the first two listed qubits, the second of the given kind. -/
def addPair (g : Diagram) (qubits : List Nat) (k : VertexKind) (e : EdgeKind) :
    Except Fault (List Nat × Diagram) := do
  let q1 ← at? qubits 0
  let (first, g) ← g.extendWire q1 .z .plain Phase.zero
  let q2 ← at? qubits 1
  let (second, g) ← g.extendWire q2 k .plain Phase.zero
  match first, second with
  | some v1, some v2 =>
      let g ← g.alignColumns v1 v2 q1 q2
      let g ← g.addEdge v1 v2 e
      return ([v1, v2], ← g.mulSqrt2Pow 1)
  | _, _ => return ([], g)

def swapOutputs (g : Diagram) (q0 q1 : Nat) : Except Fault Diagram := do
  match g.outputs[q0]?, g.outputs[q1]? with
  | some o0, some o1 =>
      let g := { g with outputs := (g.outputs.set q0 o1).set q1 o0 }
      let g ← g.setQubit o1 (Float.ofNat q0)
      g.setQubit o0 (Float.ofNat q1)
  | _, _ => return g

/-- Adds a gate that is basic and returns its spiders. Kinds without a spider of their own leave
the diagram alone. -/
def addBasicGate (g : Diagram) (gate : Gate) : Except Fault (List Nat × Diagram) := do
  match gate.kind with
  | .zPhase | .z | .s | .sdg | .t | .tdg =>
      let (v, g) ← g.extendWire (← at? gate.qubits 0) .z .plain (gate.spiderPhase.getD Phase.zero)
      return (v.toList, g)
  | .xPhase | .not =>
      let (v, g) ← g.extendWire (← at? gate.qubits 0) .x .plain (gate.spiderPhase.getD Phase.zero)
      return (v.toList, g)
  | .had =>
      let (v, g) ← g.extendWire (← at? gate.qubits 0) .z .hadamard Phase.zero
      return (v.toList, g)
  | .cnot => g.addPair gate.qubits .x .plain
  | .cz => g.addPair gate.qubits .z .hadamard
  | .swap => return ([], ← g.swapOutputs (← at? gate.qubits 0) (← at? gate.qubits 1))
  | .ccz | .toffoli | .unknown => return ([], g)

/-- Adds a gate and returns the spiders of a basic gate; a compound gate is added piece by piece
and returns none. -/
def addGate (g : Diagram) (gate : Gate) : Except Fault (List Nat × Diagram) := do
  match gate.kind with
  | .ccz | .toffoli =>
      let g ← (← gate.basicGates).foldlM (fun g piece => return (← g.addBasicGate piece).2) g
      return ([], g)
  | _ => g.addBasicGate gate

/-- Boundaries for the given qubits in one column, with their numbers. -/
def addBoundaries (g : Diagram) (n : Nat) (column : Float) :
    Except Fault (List Nat × Diagram) :=
  (List.range n).foldlM (fun (vs, g) i => do
    let (v, g) ← g.addVertex ⟨.boundary, Phase.zero, Float.ofNat i, column⟩
    return (vs ++ [v], g)) ([], g)

/-- Plain wires on `n` qubits. The list of the inputs has 8 bytes for every qubit. -/
def wires (n : Nat) : Except Fault Diagram := do
  checkTable n 8
  let (inputs, g) ← empty.addBoundaries n 0
  let (outputs, g) ← g.addBoundaries n 1
  let g ← (inputs.zip outputs).foldlM (fun g (i, o) => g.addEdge i o .plain) g
  return { g with inputs := inputs, outputs := outputs }

end Diagram

def Circuit.toDiagram (c : Circuit) (ops : Phase.Arithmetic := .words) : Except Fault Diagram := do
  let g ← c.gates.foldlM (fun g gate => return (← g.addGate gate).2) (← Diagram.wires c.width)
  g.mulPhase c.globalPhase ops

end ZX
