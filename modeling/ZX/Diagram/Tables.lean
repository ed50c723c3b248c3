import ZX.Diagram.Connect

/-!
# Diagrams in two tables

The slots of a diagram are kept in two tables, one for the data of the vertices and one for their
links. A vertex is there when its slot is occupied in both. Nothing in the tables themselves makes
them agree: an operation that adds or removes a vertex writes one table after the other, and every
other operation writes one of them only.
-/
namespace ZX

structure Tables where
  data : Array (Option VertexData)
  links : Array (Option (List Link))
  holes : List Nat
  inputs : List Nat
  outputs : List Nat
  vertexCount : Nat
  edgeCount : Nat
  scalar : Scalar

namespace Tables

def empty : Tables := ⟨#[], #[], [], [], [], 0, 0, Scalar.one⟩

def data? (t : Tables) (v : Nat) : Option VertexData := t.data[v]?.join

def links? (t : Tables) (v : Nat) : Option (List Link) := t.links[v]?.join

/-- All vertices by increasing number, as the table of the data has them. -/
def vertices (t : Tables) : List Nat :=
  (List.range t.data.size).filter fun v => (t.data? v).isSome

/-- All edges, each reported at its smaller end, as the table of the links has them. -/
def edges (t : Tables) : List (Nat × Nat × EdgeKind) :=
  (List.range t.links.size).flatMap fun v =>
    match t.links? v with
    | some links => (links.filter (v ≤ ·.1)).map fun l => (v, l.1, l.2)
    | none => []

/-! ## The table of the data -/

def dataAt (t : Tables) (v : Nat) : Except Fault VertexData :=
  match t.data[v]? with
  | none => .error .outOfRange
  | some none => .error .emptySlot
  | some (some d) => .ok d

def kind (t : Tables) (v : Nat) : Except Fault VertexKind := return (← t.dataAt v).kind

def modifyData (t : Tables) (v : Nat) (f : VertexData → Except Fault VertexData) :
    Except Fault Tables := do
  let d ← f (← t.dataAt v)
  return { t with data := t.data.setIfInBounds v (some d) }

def addToPhase (t : Tables) (v : Nat) (p : Phase) : Except Fault Tables :=
  t.modifyData v fun d => return { d with phase := ← d.phase.add p }

def mulSqrt2Pow (t : Tables) (k : Int) : Except Fault Tables :=
  return { t with scalar := ← t.scalar.mulSqrt2Pow k }

def mulPhase (t : Tables) (p : Phase) : Except Fault Tables :=
  return { t with scalar := ← t.scalar.mulPhase p }

/-! ## The table of the links -/

def edgeKind? (t : Tables) (a b : Nat) : Option EdgeKind := (t.links? a).bind (·.lookup b)

/-- Appends a link to the list of a vertex. Without the vertex there is the given fault. -/
def pushLink (t : Tables) (v : Nat) (l : Link) (missing : Fault) : Except Fault Tables :=
  match t.links? v with
  | some links => .ok { t with links := t.links.setIfInBounds v (some (links ++ [l])) }
  | none => .error missing

def addEdge (t : Tables) (a b : Nat) (e : EdgeKind) : Except Fault Tables := do
  let t := { t with edgeCount := t.edgeCount + 1 }
  (← t.pushLink a (b, e) .noSource).pushLink b (a, e) .noTarget

/-- Drops the first link between two vertices at one of them, if there is one. -/
def eraseHalf (t : Tables) (a b : Nat) : Tables :=
  { t with links := t.links.modify a (Option.map (Diagram.eraseLink · b)) }

def removeEdge (t : Tables) (a b : Nat) : Except Fault Tables := do
  let m ← natSub t.edgeCount 1
  return ({ t with edgeCount := m }.eraseHalf a b).eraseHalf b a

def setHalfKind (t : Tables) (a b : Nat) (e : EdgeKind) : Except Fault Tables :=
  match t.links? a with
  | some links =>
      match links.findIdx? (·.1 == b) with
      | some i => .ok { t with links := t.links.setIfInBounds a (some (links.set i (b, e))) }
      | none => .error .noEdge
  | none => .error (.noVertex a)

def setEdgeKind (t : Tables) (a b : Nat) (e : EdgeKind) : Except Fault Tables := do
  (← t.setHalfKind a b e).setHalfKind b a e

def toggleEdge (t : Tables) (a b : Nat) : Except Fault Tables := do
  match t.edgeKind? a b with
  | some e => t.setEdgeKind a b e.flip
  | none => throw .noEdge

/-! ## Both tables -/

/-- Writes an entry of a table that has it. -/
def write {α : Type} (xs : Array α) (i : Nat) (x : α) : Except Fault (Array α) :=
  if i < xs.size then .ok (xs.setIfInBounds i x) else .error .outOfRange

/-- Adds a vertex and returns its number. A slot of the data has 40 bytes and one of the links 24. -/
def addVertex (t : Tables) (d : VertexData) : Except Fault (Nat × Tables) := do
  let d := if d.kind = .boundary then { d with phase := Phase.zero } else d
  let t := { t with vertexCount := t.vertexCount + 1 }
  match t.holes with
  | v :: rest =>
      let t := { t with holes := rest }
      let t := { t with data := ← write t.data v (some d) }
      let t := { t with links := ← write t.links v (some []) }
      return (v, t)
  | [] =>
      checkPush t.data.size 40
      let t := { t with data := t.data.push (some d) }
      checkPush t.links.size 24
      let t := { t with links := t.links.push (some []) }
      return (t.data.size - 1, t)

/-- Removes a vertex: first its links, then its data, and last the links of others to it. -/
def removeVertex (t : Tables) (v : Nat) : Except Fault Tables := do
  match t.links[v]? with
  | none => throw .outOfRange
  | some none => throw .emptySlot
  | some (some adjacent) =>
      let t := { t with links := t.links.setIfInBounds v none }
      let n ← natSub t.vertexCount 1
      let t := { t with vertexCount := n, holes := v :: t.holes }
      let t := { t with data := ← write t.data v none }
      adjacent.foldlM (fun t l => do
        let m ← natSub t.edgeCount 1
        return { t with edgeCount := m }.eraseHalf l.1 v) t

/-! ## Adding an edge to simple tables -/

def absorbHadamard (t : Tables) (v : Nat) : Except Fault Tables := do
  (← t.addToPhase v Phase.one).mulSqrt2Pow (-1)

def mergeEdge (t : Tables) (a b : Nat) (strong present new : EdgeKind) : Except Fault Tables := do
  if present = strong then
    if new = strong then return t else t.absorbHadamard a
  else if new = strong then
    (← t.setEdgeKind a b strong).absorbHadamard a
  else
    (← t.removeEdge a b).mulSqrt2Pow (-2)

def connect (t : Tables) (a b : Nat) (e : EdgeKind) : Except Fault Tables := do
  let source ← t.kind a
  if a = b then
    match source, e with
    | .boundary, _ => throw .selfLoop
    | _, .hadamard => t.absorbHadamard a
    | _, .plain => return t
  else
    match t.edgeKind? a b with
    | none => t.addEdge a b e
    | some present =>
        match source, ← t.kind b with
        | .z, .z | .x, .x => t.mergeEdge a b .plain present e
        | .z, .x | .x, .z => t.mergeEdge a b .hadamard present e
        | k, l => throw (.parallelEdges k l)

end Tables

end ZX
