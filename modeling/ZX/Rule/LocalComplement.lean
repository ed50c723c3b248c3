import ZX.Diagram.Connect
import ZX.Rule.Basic

/-!
# Local complementation

An interior spider with a quarter turn disappears when every pair of its neighbours is joined by
one more Hadamard edge and every neighbour loses its phase.
-/
namespace ZX

namespace Diagram

/-- All edges are Hadamard edges to Z spiders. -/
def interior (g : Diagram) (x : Vertex) : Bool :=
  x.links.all fun (w, e) =>
    e = .hadamard && ((g.vertex? w).any fun y => y.data.kind = .z)

def complementable (g : Diagram) (v : Nat) : Bool :=
  match g.vertex? v with
  | some x => x.data.kind = .z && x.data.phase.isProperClifford && g.interior x
  | none => false

/-- Adds a phase to each listed vertex and a Hadamard edge to each listed pair. -/
def completeGraph (p : Phase) (vs : List Nat) (g : Diagram) (ops : Phase.Arithmetic := .words) :
    Except Fault Diagram :=
  match vs with
  | [] => return g
  | v :: vs => do
      let g ← g.addToPhase v p ops
      completeGraph p vs (← vs.foldlM (fun g w => g.connect v w .hadamard ops) g) ops

/-- The number of neighbours is taken to fit a signed word of 32 bits, which would wrap silently. -/
def localComplement (g : Diagram) (v : Nat) (ops : Phase.Arithmetic := .words) :
    Except Fault Diagram := do
  let p ← g.phase v
  let ns ← g.neighbours v
  let g ← completeGraph (← ops.neg p) ns g ops
  let g ← g.removeVertex v
  let x : Int := ns.length
  let exponent ← int32 ((x - 1) * (x - 2))
  let g ← g.mulSqrt2Pow (exponent / 2)
  g.mulPhase (← ops.ofFraction p.num 4) ops

def localComplement? (g : Diagram) (v : Nat) (ops : Phase.Arithmetic := .words) :
    Except Fault (Option Diagram) := do
  if g.complementable v then return some (← g.localComplement v ops) else return none

end Diagram

def Rule.localComplement (ops : Phase.Arithmetic := .words) : Rule Diagram Nat where
  name := "zxtract::rewrite::LocalComplementation"
  measure := Diagram.vertexCount
  places g := return g.vertices.filter g.complementable
  act g found := found.foldlM (fun g v => return (← g.localComplement? v ops).getD g) g

end ZX
