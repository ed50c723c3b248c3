import ZX.Diagram.Basic
import ZX.Decimal.Shortest

/-!
# Drawings

The text of a diagram for graph drawing tools: one line per vertex with its colour, label and
position, a blank line, and one line per edge, Hadamard edges in blue.
-/
namespace ZX.Diagram

def dotColour : VertexKind → String
  | .boundary => "black"
  | .z => "green"
  | .x => "red"

def dotLabel (g : Diagram) (v : Nat) (d : VertexData) : String :=
  if g.isInput v then s!"{v}:i"
  else if g.isOutput v then s!"{v}:o"
  else if d.phase.isZero then s!"{v}"
  else s!"{v}:" ++ d.phase.render

def dotVertex (g : Diagram) (v : Nat) (d : VertexData) : String :=
  let position :=
    if d.qubit != 0 || d.column != 0 then
      ", pos=\"" ++ Decimal.render d.column ++ "," ++ Decimal.render d.qubit ++ "!\""
    else ""
  s!"  {v} [color=" ++ dotColour d.kind ++ ", label=\"" ++ g.dotLabel v d ++ "\"" ++ position
    ++ "]\n"

def dotEdge (s t : Nat) (e : EdgeKind) : String :=
  s!"  {s} -- {t}" ++ (if e = .hadamard then " [color=blue]" else "") ++ "\n"

def dot (g : Diagram) : String :=
  let vertexLines := g.vertices.map fun v =>
    match g.vertex? v with
    | some x => g.dotVertex v x.data
    | none => ""
  let edgeLines := g.edges.map fun (s, t, e) => dotEdge s t e
  "graph \x7b\n" ++ String.join vertexLines ++ "\n" ++ String.join edgeLines ++ "\x7d\n"

end ZX.Diagram
