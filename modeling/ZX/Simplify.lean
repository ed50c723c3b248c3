import ZX.Rule.Fusion
import ZX.Rule.Identity
import ZX.Rule.Pivot

/-!
# Simplification

Strategies that remove interior Clifford spiders. Each tells whether it changed anything. Every
pass that changes a diagram lowers its number of vertices, which bounds the number of passes.
-/
namespace ZX.Diagram

def fuseAll (g : Diagram) (ops : Phase.Arithmetic := .words) : Run Fault (Bool × Diagram) :=
  (Rule.fusion ops).fixedPoint g

def removeIdentities (g : Diagram) (ops : Phase.Arithmetic := .words) :
    Run Fault (Bool × Diagram) :=
  (Rule.identity ops).fixedPoint g

def complementAll (g : Diagram) (ops : Phase.Arithmetic := .words) : Run Fault (Bool × Diagram) :=
  (Rule.localComplement ops).fixedPoint g

def pivotAll (g : Diagram) (ops : Phase.Arithmetic := .words) : Run Fault (Bool × Diagram) :=
  (Rule.pivot ops).fixedPoint g

/-- Identities, fusion, pivots and local complementations, each to its fixed point. -/
def interiorPass (g : Diagram) (ops : Phase.Arithmetic := .words) :
    Run Fault (Bool × Diagram) := do
  let (identities, g) ← g.removeIdentities ops
  let (fusions, g) ← g.fuseAll ops
  let (pivots, g) ← g.pivotAll ops
  let (complements, g) ← g.complementAll ops
  return (complements || pivots || fusions || identities, g)

/-- Passes until one changes nothing, at most so many. -/
def interiorPasses (n : Nat) (g : Diagram) (ops : Phase.Arithmetic := .words) :
    Run Fault (Bool × Diagram) :=
  match n with
  | 0 => throw .exhausted
  | n + 1 => do
      let (changed, g) ← g.interiorPass ops
      if changed then
        return (true, (← interiorPasses n g ops).2)
      else
        return (false, g)

/-- Fuses, recolours, and then runs passes to a fixed point. Only the passes count as changes. -/
def simplifyInterior (g : Diagram) (ops : Phase.Arithmetic := .words) :
    Run Fault (Bool × Diagram) := do
  let (_, g) ← g.fuseAll ops
  let g ← g.toGreen
  interiorPasses (g.vertexCount + 1) g ops

/-- The interior strategy and a last fusion. -/
def simplify (g : Diagram) (ops : Phase.Arithmetic := .words) : Run Fault (Bool × Diagram) := do
  let before := g.vertexCount
  let (interior, g) ← g.simplifyInterior ops
  let (fused, g) ← g.fuseAll ops
  Run.emit .debug s!"clifford_simp: {before} -> {g.vertexCount} vertices"
  return (fused || interior, g)

end ZX.Diagram
