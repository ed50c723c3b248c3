import ZX.Diagram.Connect
import ZX.Rule.Basic

/-!
# Spider fusion

Two spiders of one colour that a plain edge joins are one spider: the first takes over the edges
and the phase of the second.
-/
namespace ZX

namespace Diagram

def fusible (g : Diagram) (v0 v1 : Nat) : Bool :=
  v0 ≠ v1 && g.edgeKind? v0 v1 = some .plain &&
    match g.vertex? v0, g.vertex? v1 with
    | some x, some y => x.data.kind ≠ .boundary && x.data.kind = y.data.kind
    | _, _ => false

/-- Moves everything from the second spider to the first and removes the second. -/
def fuse (g : Diagram) (v0 v1 : Nat) (ops : Phase.Arithmetic := .words) : Except Fault Diagram := do
  let moved ← (← g.links v1).foldlM (fun g (v, e) =>
    if v = v0 then return g else g.connect v0 v e ops) g
  (← moved.addToPhase v0 (← moved.phase v1) ops).removeVertex v1

def fuse? (g : Diagram) (v0 v1 : Nat) (ops : Phase.Arithmetic := .words) :
    Except Fault (Option Diagram) := do
  if g.fusible v0 v1 then return some (← g.fuse v0 v1 ops) else return none

/-- The edges, as pairs, at which a test holds. -/
def edgesWhere (g : Diagram) (test : Nat → Nat → Bool) : List (Nat × Nat) :=
  (g.edges.map fun (s, t, _) => (s, t)).filter fun (s, t) => test s t

end Diagram

def Rule.fusion (ops : Phase.Arithmetic := .words) : Rule Diagram (Nat × Nat) where
  name := "zxtract::rewrite::SpiderFusion"
  measure := Diagram.vertexCount
  places g := return g.edgesWhere g.fusible
  act g found := found.foldlM (fun g (v0, v1) => return (← g.fuse? v0 v1 ops).getD g) g

end ZX
