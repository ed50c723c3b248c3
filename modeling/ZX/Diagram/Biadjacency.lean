import ZX.Diagram.Basic
import ZX.ByteMatrix.Basic

/-!
# Biadjacency

The matrix between two lists of vertices, with a 1 where a row vertex is adjacent to a column
vertex by an edge of either kind. A vertex that is listed twice as a column owns the later column.
-/
namespace ZX.Diagram

/-- The last position of a vertex. -/
def lastPosition? : List Nat → Nat → Option Nat
  | [], _ => none
  | c :: cols, w =>
      match lastPosition? cols w with
      | some k => some (k + 1)
      | none => if c = w then some 0 else none

def biadjacencyRow (g : Diagram) (cols : List Nat) (v : Nat) : Except Fault (Array UInt8) := do
  let hits := (← g.neighbours v).filterMap (lastPosition? cols)
  return hits.foldl (fun row j => row.setIfInBounds j 1) (Array.replicate cols.length 0)

def biadjacency (g : Diagram) (rows cols : List Nat) : Except Fault ByteMatrix :=
  return ⟨(← rows.mapM (g.biadjacencyRow cols)).toArray⟩

end ZX.Diagram
