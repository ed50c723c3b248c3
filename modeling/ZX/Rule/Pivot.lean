import ZX.Rule.Fusion
import ZX.Rule.LocalComplement

/-!
# Pivoting

Two interior spiders with Pauli phases on one Hadamard edge disappear when every neighbour of the
one is joined to every neighbour of the other by one more Hadamard edge. A common neighbour meets
itself on the way and takes half a turn.
-/
namespace ZX

namespace Diagram

def pivotable (g : Diagram) (v0 v1 : Nat) : Bool :=
  match g.vertex? v0, g.vertex? v1 with
  | some x, some y =>
      x.data.kind = .z && y.data.kind = .z && g.edgeKind? v0 v1 = some .hadamard
        && x.data.phase.isPauli && y.data.phase.isPauli && g.interior x && g.interior y
  | _, _ => false

/-- Joins neighbours of `v0` to neighbours of `v1`, the two vertices themselves left out. -/
def completeBipartite (v0 v1 : Nat) (p1 : Phase) (ns0 ns1 : List Nat) (g : Diagram)
    (ops : Phase.Arithmetic := .words) : Except Fault Diagram :=
  ns0.foldlM (fun g n0 => do
    let g ← g.addToPhase n0 p1 ops
    ns1.foldlM (fun g n1 =>
      if n0 ≠ v1 ∧ n1 ≠ v0 then g.connect n0 n1 .hadamard ops else return g) g) g

/-- The numbers of neighbours are taken to fit signed words of 32 bits, which would wrap silently. -/
def pivot (g : Diagram) (v0 v1 : Nat) (ops : Phase.Arithmetic := .words) :
    Except Fault Diagram := do
  let p0 ← g.phase v0
  let p1 ← g.phase v1
  let ns0 ← g.neighbours v0
  let ns1 ← g.neighbours v1
  let g ← completeBipartite v0 v1 p1 ns0 ns1 g ops
  let g ← ns1.foldlM (fun g n1 => g.addToPhase n1 p0 ops) g
  let g ← g.removeVertex v0
  let g ← g.removeVertex v1
  let g ← g.mulSqrt2Pow (← int32 (((ns0.length : Int) - 2) * ((ns1.length : Int) - 2)))
  if !p0.isZero && !p1.isZero then g.mulPhase Phase.one ops else return g

def pivot? (g : Diagram) (v0 v1 : Nat) (ops : Phase.Arithmetic := .words) :
    Except Fault (Option Diagram) := do
  if g.pivotable v0 v1 then return some (← g.pivot v0 v1 ops) else return none

end Diagram

def Rule.pivot (ops : Phase.Arithmetic := .words) : Rule Diagram (Nat × Nat) where
  name := "zxtract::rewrite::Pivot"
  measure := Diagram.vertexCount
  places g := return g.edgesWhere g.pivotable
  act g found := found.foldlM (fun g (v0, v1) => return (← g.pivot? v0 v1 ops).getD g) g

end ZX
