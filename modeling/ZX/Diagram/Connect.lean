import ZX.Diagram.Basic

/-!
# Adding an edge to a simple diagram

`Diagram.connect` adds one more edge and keeps the diagram free of loops and parallel edges. A
loop on a spider, or a second edge between two spiders, is absorbed: two edges that cancel vanish,
a plain edge between spiders of one colour swallows any other, and what remains shows in the phase
of the first spider and in the scalar.
-/
namespace ZX.Diagram

/-- Half a turn on a spider and a factor `1/sqrt(2)`. -/
def absorbHadamard (g : Diagram) (v : Nat) (ops : Phase.Arithmetic := .words) :
    Except Fault Diagram := do
  (← g.addToPhase v Phase.one ops).mulSqrt2Pow (-1)

/-- Two edges that cancel each other, at the price of a factor `1/2`. -/
def cancelEdge (g : Diagram) (s t : Nat) : Except Fault Diagram := do
  (← g.removeEdge s t).mulSqrt2Pow (-2)

/-- Adds an edge to a pair that an edge of kind `present` joins already. Between spiders of one
colour a plain edge is the stronger one, between spiders of different colours a Hadamard edge is. -/
def mergeEdge (g : Diagram) (s t : Nat) (strong present new : EdgeKind)
    (ops : Phase.Arithmetic := .words) : Except Fault Diagram := do
  if present = strong then
    if new = strong then return g else g.absorbHadamard s ops
  else if new = strong then
    (← g.setEdgeKind s t strong).absorbHadamard s ops
  else
    g.cancelEdge s t

def connect (g : Diagram) (s t : Nat) (e : EdgeKind) (ops : Phase.Arithmetic := .words) :
    Except Fault Diagram := do
  let source ← g.kind s
  if s = t then
    match source, e with
    | .boundary, _ => throw .selfLoop
    | _, .hadamard => g.absorbHadamard s ops
    | _, .plain => return g
  else
    match g.edgeKind? s t with
    | none => g.addEdge s t e
    | some present =>
        match source, ← g.kind t with
        | .z, .z | .x, .x => g.mergeEdge s t .plain present e ops
        | .z, .x | .x, .z => g.mergeEdge s t .hadamard present e ops
        | a, b => throw (.parallelEdges a b)

end ZX.Diagram
