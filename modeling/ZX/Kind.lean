/-!
# Kinds of vertices and edges

A ZX-diagram has boundary vertices, green Z spiders and red X spiders, joined by plain wires and
by wires that carry a Hadamard.
-/
namespace ZX

inductive VertexKind where
  | boundary
  | z
  | x
deriving DecidableEq, Repr

/-- One letter, as it appears in messages about vertices. -/
def VertexKind.letter : VertexKind → String
  | .boundary => "B"
  | .z => "Z"
  | .x => "X"

inductive EdgeKind where
  | plain
  | hadamard
deriving DecidableEq, Repr

namespace EdgeKind

def letter : EdgeKind → String
  | .plain => "N"
  | .hadamard => "H"

/-- The kind of a wire after one more Hadamard. -/
def flip : EdgeKind → EdgeKind
  | .plain => .hadamard
  | .hadamard => .plain

/-- The kind of the wire that two wires form when they meet in an identity. -/
def through : EdgeKind → EdgeKind → EdgeKind
  | .plain, e => e
  | .hadamard, e => e.flip

@[simp] theorem flip_flip (e : EdgeKind) : e.flip.flip = e := by cases e <;> rfl

end EdgeKind

end ZX
