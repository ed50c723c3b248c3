import ZX.Diagram.Basic

/-!
# Unfusing a boundary

Inserts a spider without a phase on the edge between a vertex and a boundary, so that the boundary
hangs on a Hadamard edge. The other half of the edge takes the opposite of the old kind.
-/
namespace ZX.Diagram

/-- The new spider, if the second vertex is a boundary that is adjacent to the first. -/
def unfuseBoundary (g : Diagram) (v b : Nat) : Except Fault (Option Nat × Diagram) := do
  if (← g.kind b) ≠ .boundary then
    return (none, g)
  else
    match g.edgeKind? v b with
    | none => return (none, g)
    | some e =>
        let column := ((← g.column v) + (← g.column b)) / 2
        let (new, g) ← g.addVertex ⟨.z, Phase.zero, ← g.qubit b, column⟩
        let g ← g.removeEdge v b
        let g ← g.addEdge b new .hadamard
        return (some new, ← g.addEdge new v e.flip)

end ZX.Diagram
