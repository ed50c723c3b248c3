import ZX.ByteMatrix.Elimination
import ZX.Diagram.Biadjacency
import ZX.Extraction.Preparation

/-!
# One round of extraction

The frontier spiders are reduced against their neighbours. Each row operation becomes a controlled
not in front of the circuit, and the edges are laid anew according to the reduced matrix. A
frontier spider that is left with one neighbour gives its place on the frontier to that neighbour.
-/
namespace ZX

/-- A circuit that takes row steps in front. Row `i` belongs to the `i`-th listed qubit, and a swap
is three controlled nots. -/
structure FrontierGates where
  circuit : Circuit
  qubits : List Nat

instance : RowOps FrontierGates where
  rowAdd x r0 r1 := do
    let control ← at? x.qubits r1
    let target ← at? x.qubits r0
    return { x with circuit := x.circuit.pushFront (.plain .cnot [control, target]) }
  rowSwap x r0 r1 := do
    let a ← at? x.qubits r0
    let b ← at? x.qubits r1
    let there := Gate.plain .cnot [a, b]
    let back := Gate.plain .cnot [b, a]
    return { x with
      circuit := ((x.circuit.pushFront there).pushFront back).pushFront there }

namespace Workspace

/-- The frontier entries that end in a Z spider with an edge. -/
def activeRows (w : Workspace) : Except Fault (List FrontierEntry) :=
  w.frontier.filterM fun (_, v) => do
    if (← w.diagram.kind v) = .z then return 0 < (← w.diagram.degree v) else return false

/-- All neighbours of the given frontier vertices, each once, none of them on the frontier. -/
def collectNeighbours (w : Workspace) (vs : List Nat) : Extraction (List Nat) :=
  vs.foldlM (fun found v => do
    (← w.diagram.neighbours v).foldlM (fun found n => do
      if (w.frontierQubit? n).isSome then
        w.refuse (.connectedFrontier v n)
      else if found.contains n then
        return found
      else
        return found ++ [n]) found) []

/-- Acts on the diagram for every entry 1 of a matrix between two lists of vertices, row by row. -/
def forOnes (m : ByteMatrix) (rows cols : List Nat)
    (act : Diagram → Nat → Nat → Except Fault Diagram) (g : Diagram) : Except Fault Diagram :=
  (rows.zip m.rows.toList).foldlM (fun g (v, row) =>
    (cols.zip row.toList).foldlM (fun g (w, x) => if x = 1 then act g v w else return g) g) g

/-- Replaces the vertex of a qubit on the frontier. -/
def replaceEntry (frontier : List FrontierEntry) (q v : Nat) : List FrontierEntry :=
  match frontier.findIdx? (·.1 = q) with
  | some i => frontier.set i (q, v)
  | none => frontier

/-- Gives the place of `v` on the frontier to its neighbour `u`. A spider hands over its phase and
moves to the qubit line; an input is tied to `v` by a plain wire. -/
def advanceTo (w : Workspace) (q v u : Nat) (isInput : Bool) : Except Fault Workspace := do
  let w := w.emit (.plain .had [q])
  if isInput then
    let g ← w.diagram.removeEdge v u
    let g ← g.addEdge v u .plain
    return { w with diagram := g, frontier := replaceEntry w.frontier q u }
  else
    let w := w.emit ⟨.zPhase, [q], ← w.diagram.phase u⟩
    let g ← w.diagram.setPhase u Phase.zero
    let line ← g.qubit v
    let g ←
      if line != (← g.qubit u) then do
        let g ← g.setQubit u line
        g.setColumn u ((← g.column v) + 1)
      else
        pure g
    let g ← g.removeEdge v u
    let g ← g.removeVertex v
    return { w with diagram := g, frontier := replaceEntry w.frontier q u }

/-- Extracts the neighbours named by the listed rows, those with a single entry. -/
def extractUnits (m : ByteMatrix) (rows : List FrontierEntry) (cols : List Nat) :
    List Nat → Workspace → Extraction (List FrontierEntry × Workspace)
  | [], w => return ([], w)
  | i :: is, w => do
      match (← m.row i).idxOf? 1 with
      | none => extractUnits m rows cols is w
      | some j =>
          let (q, v) ← (at? rows i : Except Fault _)
          let u ← (at? cols j : Except Fault _)
          if (← w.diagram.degree v) ≠ 1 then
            extractUnits m rows cols is w
          else
            let kind ← w.diagram.kind u
            let isInput := kind = .boundary && w.diagram.isInput u
            if !isInput && kind ≠ .z then
              w.refuse (.strayBoundary u)
            else
              let w ← w.advanceTo q v u isInput
              let (found, w) ← extractUnits m rows cols is w
              return ((q, u) :: found, w)

/-- A list of numbers in brackets. -/
def bracketed (vs : List Nat) : String := "[" ++ ", ".intercalate (vs.map toString) ++ "]"

/-- Moves the frontier back by one round and returns the vertices that joined it. -/
def advance (w : Workspace) : Extraction (List Nat × Workspace) := do
  let rows ← w.activeRows
  match rows with
  | [] => return ([], w)
  | _ =>
      let qubits := rows.map Prod.fst
      let spiders := rows.map Prod.snd
      let found ← w.collectNeighbours spiders
      let cols ← sortByQubit w.diagram found
      let m ← w.diagram.biadjacency spiders cols
      let (reduced, steps) ← m.eliminate
      Run.emit .trace
        ("frontier " ++ bracketed spiders ++ " against " ++ bracketed cols
          ++ s!", {steps.length} row ops")
      let gates ← RowStep.replay steps (⟨w.circuit, qubits⟩ : FrontierGates)
      let g ← forOnes m spiders cols (fun g v u => g.removeEdge v u) w.diagram
      let g ← forOnes reduced spiders cols (fun g v u => g.addEdge v u .hadamard) g
      let w := { w with diagram := g, circuit := gates.circuit }
      let (new, w) ← extractUnits reduced rows cols reduced.unitRows w
      let w ← cutEdges new w
      let frontier := w.frontier.mergeSort fun a b => a.1 ≤ b.1
      return (new.map Prod.snd, { w with frontier := frontier })

end Workspace

end ZX
