import ZX.Diagram.Connect
import ZX.Rule.Basic

/-!
# Identity removal

A spider without a phase on two edges is a piece of wire. Its neighbours are joined by an edge
whose kind is the parity of the two.
-/
namespace ZX

namespace Diagram

def removable (g : Diagram) (v : Nat) : Bool :=
  match g.vertex? v with
  | some x => x.data.kind ≠ .boundary && x.data.phase.isZero && x.links.length = 2
  | none => false

/-- Joins the first two neighbours past the spider. -/
def removeIdentity (g : Diagram) (v : Nat) (ops : Phase.Arithmetic := .words) :
    Except Fault Diagram := do
  match ← g.links v with
  | (s, e) :: (t, f) :: _ => (← g.removeVertex v).connect s t (e.through f) ops
  | _ => throw .outOfRange

def removeIdentity? (g : Diagram) (v : Nat) (ops : Phase.Arithmetic := .words) :
    Except Fault (Option Diagram) := do
  if g.removable v then return some (← g.removeIdentity v ops) else return none

end Diagram

def Rule.identity (ops : Phase.Arithmetic := .words) : Rule Diagram Nat where
  name := "zxtract::rewrite::RemoveIdentity"
  measure := Diagram.vertexCount
  places g := return g.vertices.filter g.removable
  act g found := found.foldlM (fun g v => return (← g.removeIdentity? v ops).getD g) g

end ZX
