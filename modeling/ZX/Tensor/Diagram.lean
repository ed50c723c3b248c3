import ZX.Diagram.Basic
import ZX.Tensor.Basic

/-!
# The tensor of a diagram

Vertices are added one at a time as new first axes, the outputs from the last on, then the spiders,
then the inputs. An edge acts when its second end appears, and the axis of a spider is summed away
as soon as all its edges have acted.
-/
namespace ZX

/-- A partly contracted diagram: its tensor, the vertex of each axis, and for every vertex met so
far the number of its edges that have acted. -/
structure Contraction (K : Type) where
  tensor : Tensor K
  axes : List Nat
  seen : List (Nat × Nat)

namespace Contraction

variable {K : Type} [Amplitude K]

def setSeen (c : Contraction K) (v n : Nat) : Contraction K :=
  { c with seen := (v, n) :: c.seen.filter fun p => p.1 ≠ v }

/-- The factor of an edge between the first axis and another. -/
def edgeFactor (t : Tensor K) (axis : Nat) : EdgeKind → Except Fault (Tensor K)
  | .plain => t.deltaAt [0, axis]
  | .hadamard => return (← t.phaseAt Phase.one [0, axis]).scale Amplitude.invSqrt2

def sumAway (c : Contraction K) (axis : Nat) : Contraction K :=
  { c with tensor := c.tensor.sumAxis axis, axes := c.axes.eraseIdx axis }

/-- Lets one edge of the newest vertex act, if its other end has been met. Counts the edges of the
newest vertex that have acted. -/
def addLink (g : Diagram) (state : Nat × Contraction K) (link : Link) :
    Except Fault (Nat × Contraction K) := do
  let (acted, c) := state
  let (w, e) := link
  match c.seen.lookup w with
  | none => return (acted, c)
  | some n =>
      let c := c.setSeen w (n + 1)
      match c.axes.idxOf? w with
      | none => throw .lostAxis
      | some axis =>
          let c := { c with tensor := ← edgeFactor c.tensor axis e }
          if (← g.kind w) ≠ .boundary then
            if (← g.degree w) = n + 1 then
              return (acted + 1, c.sumAway axis)
            else
              return (acted + 1, c)
          else
            return (acted + 1, c)

def addVertex (g : Diagram) (c : Contraction K) (v : Nat) : Except Fault (Contraction K) := do
  let p ← g.phase v
  let factor := if p.isZero then none else some (Amplitude.ofPhase p)
  let c := { c with tensor := c.tensor.addAxis factor, axes := v :: c.axes }
  let (acted, c) ← (← g.links v).foldlM (addLink g) (0, c)
  let c ←
    if (← g.kind v) ≠ .boundary then
      pure (if (← g.degree v) = acted then c.sumAway 0 else c)
    else
      pure c
  return c.setSeen v acted

end Contraction

def Diagram.toTensor (K : Type) [Amplitude K] (g : Diagram) : Except Fault (Tensor K) := do
  let g ← g.toGreen
  let spiders ← g.vertices.filterM fun v => return (← g.kind v) ≠ .boundary
  let order := g.inputs ++ spiders ++ g.outputs
  if order.length < g.vertexCount then
    throw .looseBoundary
  else
    let c ← order.reverse.foldlM (Contraction.addVertex g) (⟨Tensor.unit, [], []⟩ : Contraction K)
    return c.tensor.scale (Amplitude.ofScalar g.scalar)

end ZX
