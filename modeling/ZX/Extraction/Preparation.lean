import ZX.Extraction.Failure
import ZX.Rule.Fusion
import ZX.Rule.Unfusion

/-!
# The first frontier

The diagram is made graph-like, and every input is hung on a Z spider by a Hadamard edge. Then the
output wires are peeled off: a Hadamard edge and the phase of the spider behind it become gates,
and the spiders form the frontier. Edges inside the frontier become controlled phase gates.
-/
namespace ZX.Workspace

/-- Looks at one input and pads it unless it hangs on a Z spider by a Hadamard edge already. -/
def padInput (w : Workspace) (b : Nat) : Extraction Workspace := do
  match ← w.diagram.links b with
  | [(v, e)] =>
      if e ≠ .hadamard ∨ (← w.diagram.kind v) ≠ .z then
        match ← w.diagram.unfuseBoundary v b with
        | (some new, g) =>
            Run.emit .trace s!"padded input {b} with {new}"
            return { w with diagram := g }
        | (none, _) => return w
      else
        return w
  | links => w.refuse (.inputDegree b links.length)

def normaliseInputs (w : Workspace) (ops : Phase.Arithmetic := .words) :
    Extraction Workspace := do
  let g ← w.diagram.toGreen
  let (_, g) ← (Rule.fusion ops).fixedPoint g
  g.inputs.foldlM padInput { w with diagram := g }

/-- Turns one output wire into gates and its spider into a frontier entry. -/
def peelOutput (w : Workspace) (q o : Nat) : Extraction Workspace := do
  match ← w.diagram.links o with
  | [(v, e)] =>
      if (← w.diagram.kind v) ≠ .z then
        w.refuse (.outputWithoutSpider o)
      else if (w.frontierQubit? v).isSome then
        w.refuse (.sharedSpider v)
      else
        let w := if e = .hadamard then w.emit (.plain .had [q]) else w
        let w := w.emit ⟨.zPhase, [q], ← w.diagram.phase v⟩
        let g ← w.diagram.setPhase v Phase.zero
        let g ← g.setQubit v (Float.ofNat q)
        let g ← g.removeEdge v o
        return { w with diagram := g, frontier := w.frontier ++ [(q, v)] }
  | _ => w.refuse (.outputNeighbours o)

def peelOutputs (w : Workspace) : Extraction Workspace :=
  w.diagram.outputs.zipIdx.foldlM (fun w (o, q) => w.peelOutput q o) { w with frontier := [] }

/-- Turns the Hadamard edge between two wire ends, if there is one, into a controlled phase. -/
def cutEdge (a : FrontierEntry) (w : Workspace) (b : FrontierEntry) : Except Fault Workspace := do
  if w.diagram.edgeKind? a.2 b.2 = some .hadamard then
    let g ← w.diagram.removeEdge a.2 b.2
    return { w with diagram := g }.emit (.plain .cz [a.1, b.1])
  else
    return w

/-- Cuts the edges between all pairs of the listed wire ends. -/
def cutEdges : List FrontierEntry → Workspace → Except Fault Workspace
  | [], w => return w
  | a :: rest, w => do cutEdges rest (← rest.foldlM (cutEdge a) w)

def prepare (w : Workspace) (ops : Phase.Arithmetic := .words) : Extraction Workspace := do
  let w ← w.normaliseInputs ops
  let w ← w.peelOutputs
  cutEdges w.frontier w

end ZX.Workspace
