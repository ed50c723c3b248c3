import ZX.Scalar

/-!
# Diagrams

A diagram keeps its vertices in numbered slots. A vertex knows its data and the list of its links,
one entry per incident edge, so an edge is stored at both ends and a loop twice at one end. The
slot of a removed vertex is reused by the next insertion, the last freed slot first. The order of
a link list is observable: a new link goes to the end, and a removed link is replaced by the last.

An edge that does not exist can be removed without complaint from either list; only the edge count
notices.
-/
namespace ZX

/-- What a vertex carries. The coordinates place it on a qubit line and in a column. -/
structure VertexData where
  kind : VertexKind
  phase : Phase
  qubit : Float
  column : Float
deriving BEq

/-- Data of a new vertex of a kind: no phase, at the corner of the layout. -/
def VertexData.ofKind (k : VertexKind) : VertexData := ⟨k, Phase.zero, 0, 0⟩

/-- The far end of an edge and the kind of the edge. -/
abbrev Link := Nat × EdgeKind

structure Vertex where
  data : VertexData
  links : List Link
deriving BEq

structure Diagram where
  slots : Array (Option Vertex)
  holes : List Nat
  inputs : List Nat
  outputs : List Nat
  vertexCount : Nat
  edgeCount : Nat
  scalar : Scalar
deriving BEq

namespace Diagram

def empty : Diagram := ⟨#[], [], [], [], 0, 0, Scalar.one⟩

instance : Inhabited Diagram := ⟨empty⟩

def vertex? (g : Diagram) (v : Nat) : Option Vertex := g.slots[v]?.join

def contains (g : Diagram) (v : Nat) : Bool := (g.vertex? v).isSome

/-- All vertices by increasing number. -/
def vertices (g : Diagram) : List Nat := (List.range g.slots.size).filter g.contains

/-- All edges, each reported at its smaller end and in the order stored there. -/
def edges (g : Diagram) : List (Nat × Nat × EdgeKind) :=
  g.vertices.flatMap fun v =>
    match g.vertex? v with
    | some x => (x.links.filter (v ≤ ·.1)).map fun l => (v, l.1, l.2)
    | none => []

/-! ## Reading a vertex -/

def data (g : Diagram) (v : Nat) : Except Fault VertexData :=
  match g.slots[v]? with
  | none => .error .outOfRange
  | some none => .error .emptySlot
  | some (some x) => .ok x.data

def kind (g : Diagram) (v : Nat) : Except Fault VertexKind := return (← g.data v).kind

def phase (g : Diagram) (v : Nat) : Except Fault Phase := return (← g.data v).phase

def qubit (g : Diagram) (v : Nat) : Except Fault Float := return (← g.data v).qubit

def column (g : Diagram) (v : Nat) : Except Fault Float := return (← g.data v).column

def links (g : Diagram) (v : Nat) : Except Fault (List Link) :=
  match g.vertex? v with
  | some x => .ok x.links
  | none => .error (.noVertex v)

def neighbours (g : Diagram) (v : Nat) : Except Fault (List Nat) :=
  return (← g.links v).map Prod.fst

def degree (g : Diagram) (v : Nat) : Except Fault Nat := return (← g.links v).length

/-- The kind of the first edge between two vertices. -/
def edgeKind? (g : Diagram) (s t : Nat) : Option EdgeKind :=
  (g.vertex? s).bind fun x => x.links.lookup t

def edgeKind (g : Diagram) (s t : Nat) : Except Fault EdgeKind :=
  match g.edgeKind? s t with
  | some e => .ok e
  | none => .error .noEdge

def connected (g : Diagram) (s t : Nat) : Bool := (g.edgeKind? s t).isSome

def isInput (g : Diagram) (v : Nat) : Bool := g.inputs.contains v

def isOutput (g : Diagram) (v : Nat) : Bool := g.outputs.contains v

/-! ## Changing a vertex -/

def modifyVertex (g : Diagram) (v : Nat) (f : Vertex → Vertex) : Diagram :=
  { g with slots := g.slots.modify v (Option.map f) }

def modifyLinks (g : Diagram) (v : Nat) (f : List Link → List Link) : Diagram :=
  g.modifyVertex v fun x => { x with links := f x.links }

def setData (g : Diagram) (v : Nat) (d : VertexData) : Diagram :=
  g.modifyVertex v fun x => { x with data := d }

def setKind (g : Diagram) (v : Nat) (k : VertexKind) : Except Fault Diagram := do
  let d ← g.data v
  return g.setData v { d with kind := k }

def setPhase (g : Diagram) (v : Nat) (p : Phase) : Except Fault Diagram := do
  let d ← g.data v
  return g.setData v { d with phase := p }

def addToPhase (g : Diagram) (v : Nat) (p : Phase) (ops : Phase.Arithmetic := .words) :
    Except Fault Diagram := do
  let d ← g.data v
  return g.setData v { d with phase := ← ops.add d.phase p }

def setQubit (g : Diagram) (v : Nat) (x : Float) : Except Fault Diagram := do
  let d ← g.data v
  return g.setData v { d with qubit := x }

def setColumn (g : Diagram) (v : Nat) (x : Float) : Except Fault Diagram := do
  let d ← g.data v
  return g.setData v { d with column := x }

def mulSqrt2Pow (g : Diagram) (k : Int) : Except Fault Diagram :=
  return { g with scalar := ← g.scalar.mulSqrt2Pow k }

def mulPhase (g : Diagram) (p : Phase) (ops : Phase.Arithmetic := .words) : Except Fault Diagram :=
  return { g with scalar := ← g.scalar.mulPhase p ops }

/-! ## Adding and removing vertices and edges -/

/-- Puts a vertex into the last freed slot or into a new one, and returns its number. A boundary
never starts with a phase. -/
def insertVertex (g : Diagram) (d : VertexData) : Nat × Diagram :=
  let d := if d.kind = .boundary then { d with phase := Phase.zero } else d
  let g := { g with vertexCount := g.vertexCount + 1 }
  match g.holes with
  | v :: rest =>
      (v, { g with slots := g.slots.setIfInBounds v (some ⟨d, []⟩), holes := rest })
  | [] => (g.slots.size, { g with slots := g.slots.push (some ⟨d, []⟩) })

/-- Room for one more vertex: a hole, or a new slot of 40 bytes. -/
def checkSlot (g : Diagram) : Except Fault Unit :=
  if g.holes.isEmpty then checkPush g.slots.size 40 else .ok ()

/-- Adds a vertex and returns its number. -/
def addVertex (g : Diagram) (d : VertexData) : Except Fault (Nat × Diagram) := do
  g.checkSlot
  return g.insertVertex d

/-- The list without its entry at `i`, whose place the last entry takes. -/
def swapRemove {α : Type} (xs : List α) (i : Nat) : List α :=
  match xs.getLast? with
  | some x => (xs.set i x).dropLast
  | none => []

/-- Drops the first link to a vertex, if there is one. -/
def eraseLink (links : List Link) (t : Nat) : List Link :=
  match links.findIdx? (·.1 == t) with
  | some i => swapRemove links i
  | none => links

def eraseHalf (g : Diagram) (s t : Nat) : Diagram := g.modifyLinks s (eraseLink · t)

def removeVertex (g : Diagram) (v : Nat) : Except Fault Diagram := do
  match g.slots[v]? with
  | none => throw .outOfRange
  | some none => throw .emptySlot
  | some (some x) =>
      let n ← natSub g.vertexCount 1
      let cleared :=
        { g with slots := g.slots.setIfInBounds v none, holes := v :: g.holes, vertexCount := n }
      x.links.foldlM (fun g l => do
        let m ← natSub g.edgeCount 1
        return { g with edgeCount := m }.eraseHalf l.1 v) cleared

def addEdge (g : Diagram) (s t : Nat) (e : EdgeKind) : Except Fault Diagram :=
  if !g.contains s then .error .noSource
  else if !g.contains t then .error .noTarget
  else .ok
    (({ g with edgeCount := g.edgeCount + 1 }.modifyLinks s (· ++ [(t, e)])).modifyLinks t
      (· ++ [(s, e)]))

def removeEdge (g : Diagram) (s t : Nat) : Except Fault Diagram := do
  let m ← natSub g.edgeCount 1
  return ({ g with edgeCount := m }.eraseHalf s t).eraseHalf t s

def setHalfKind (g : Diagram) (s t : Nat) (e : EdgeKind) : Except Fault Diagram := do
  let links ← g.links s
  match links.findIdx? (·.1 == t) with
  | some i => return g.modifyLinks s (·.set i (t, e))
  | none => throw .noEdge

def setEdgeKind (g : Diagram) (s t : Nat) (e : EdgeKind) : Except Fault Diagram := do
  (← g.setHalfKind s t e).setHalfKind t s e

def toggleEdge (g : Diagram) (s t : Nat) : Except Fault Diagram := do
  g.setEdgeKind s t (← g.edgeKind s t).flip

/-! ## Whole-diagram operations -/

/-- Turns every X spider into a Z spider and toggles all its edges. -/
def toGreen (g : Diagram) : Except Fault Diagram :=
  g.vertices.foldlM (fun g v => do
    if (← g.kind v) = .x then
      let g ← g.setKind v .z
      (← g.neighbours v).foldlM (fun g w => g.toggleEdge v w) g
    else
      return g) g

/-- The number of spiders whose phase is no multiple of a quarter turn. -/
def nonCliffordCount (g : Diagram) : Nat :=
  g.vertices.countP fun v =>
    match g.vertex? v with
    | some x => x.data.kind ≠ .boundary && !x.data.phase.isClifford
    | none => false

end Diagram

end ZX
