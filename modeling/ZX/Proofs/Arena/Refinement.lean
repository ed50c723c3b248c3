import Mathlib
import ZX.Diagram.Connect
import ZX.Proofs.Rewriting

/-!
# The arena refines a labelled graph

The abstract graph has data at some vertices, kinds of edges at some unordered pairs, two boundary
lists and a scalar. Every operation of the arena is an update of these maps. `Diagram.view` forgets
the slots, the holes, the order of the links and the counters; the operations commute with it, down
to the overflows of phases and scalars, which are the only ways in which they fail.
-/
namespace ZX

open Finset

/-- A simple graph with labels, as maps. -/
structure LabelledGraph where
  data : ℕ → Option VertexData
  edge : Sym2 ℕ → Option EdgeKind
  inputs : List ℕ
  outputs : List ℕ
  scalar : Scalar

namespace LabelledGraph

def setData (G : LabelledGraph) (v : ℕ) (d : VertexData) : LabelledGraph :=
  { G with data := Function.update G.data v (some d) }

/-- The vertex goes, and with it all pairs that it is in. -/
def remove (G : LabelledGraph) (v : ℕ) : LabelledGraph :=
  { G with
    data := Function.update G.data v none
    edge := fun pair => if v ∈ pair then none else G.edge pair }

def setEdge (G : LabelledGraph) (a b : ℕ) (o : Option EdgeKind) : LabelledGraph :=
  { G with edge := Function.update G.edge s(a, b) o }

theorem data_setData (G : LabelledGraph) (v : ℕ) (d : VertexData) (u : ℕ) :
    (G.setData v d).data u = if u = v then some d else G.data u :=
  Function.update_apply ..

theorem data_remove (G : LabelledGraph) (v u : ℕ) :
    (G.remove v).data u = if u = v then none else G.data u :=
  Function.update_apply ..

theorem edge_setEdge (G : LabelledGraph) (a b : ℕ) (o : Option EdgeKind) (pair : Sym2 ℕ) :
    (G.setEdge a b o).edge pair = if pair = s(a, b) then o else G.edge pair :=
  Function.update_apply ..

def kind? (G : LabelledGraph) (v : ℕ) : Option VertexKind := (G.data v).map VertexData.kind

def modifyData (G : LabelledGraph) (v : ℕ) (f : VertexData → Except Fault VertexData) :
    Except Fault LabelledGraph :=
  match G.data v with
  | some d => return G.setData v (← f d)
  | none => throw .emptySlot

theorem modifyData_of_data {G : LabelledGraph} {v : ℕ} {d : VertexData} (h : G.data v = some d)
    (f : VertexData → Except Fault VertexData) :
    G.modifyData v f = (f d).map (G.setData v) := by
  simp only [modifyData, h]
  cases f d <;> rfl

def mulSqrt2Pow (G : LabelledGraph) (k : ℤ) : Except Fault LabelledGraph :=
  return { G with scalar := ← G.scalar.mulSqrt2Pow k }

def mulPhase (G : LabelledGraph) (p : Phase) : Except Fault LabelledGraph :=
  return { G with scalar := ← G.scalar.mulPhase p }

def addToPhase (G : LabelledGraph) (v : ℕ) (p : Phase) : Except Fault LabelledGraph :=
  G.modifyData v fun d => return { d with phase := ← d.phase.add p }

/-- Half a turn and a factor `1/sqrt(2)`. -/
def absorbHadamard (G : LabelledGraph) (v : ℕ) : Except Fault LabelledGraph := do
  (← G.addToPhase v Phase.one).mulSqrt2Pow (-1)

/-- One more edge, where loops and parallel edges are absorbed. A plain edge is the stronger one
between spiders of one colour, a Hadamard edge between spiders of different colours; two weak edges
cancel. -/
def connect (G : LabelledGraph) (a b : ℕ) (e : EdgeKind) : Except Fault LabelledGraph := do
  if a = b then
    if e = .hadamard then G.absorbHadamard a else return G
  else
    match G.edge s(a, b) with
    | none => return G.setEdge a b (some e)
    | some present =>
        let strong := if G.kind? a = G.kind? b then EdgeKind.plain else .hadamard
        if present = strong then
          if e = strong then return G else G.absorbHadamard a
        else if e = strong then
          (G.setEdge a b (some strong)).absorbHadamard a
        else
          (G.setEdge a b none).mulSqrt2Pow (-2)

end LabelledGraph

/-! ## The view of a diagram -/

namespace Diagram

variable {g g' : Diagram} {a b s t v : ℕ} {e : EdgeKind} {o : Option EdgeKind}

def view (g : Diagram) : LabelledGraph where
  data := g.data?
  edge pair := g.edgeKind? pair.inf pair.sup
  inputs := g.inputs
  outputs := g.outputs
  scalar := g.scalar

theorem Consistent.view_edge (h : g.Consistent) (a b : ℕ) :
    g.view.edge s(a, b) = g.edgeKind? a b := by
  show g.edgeKind? (a ⊓ b) (a ⊔ b) = g.edgeKind? a b
  obtain hab | hab := le_total a b
  · rw [inf_eq_left.mpr hab, sup_eq_right.mpr hab]
  · rw [inf_eq_right.mpr hab, sup_eq_left.mpr hab, h.edgeKind?_comm]

theorem view_kind? : g.view.kind? v = g.kind? v := rfl

/-- A diagram and a graph that agree in every entry. -/
theorem Consistent.view_eq {G : LabelledGraph} (h : g.Consistent) (hdata : ∀ v, g.data? v = G.data v)
    (hedge : ∀ a b, g.edgeKind? a b = G.edge s(a, b)) (hin : g.inputs = G.inputs)
    (hout : g.outputs = G.outputs) (hscalar : g.scalar = G.scalar) : g.view = G := by
  have hdata' : g.view.data = G.data := funext hdata
  have hedge' : g.view.edge = G.edge := by
    funext pair
    induction pair using Sym2.ind with
    | _ a b => rw [h.view_edge, hedge]
  cases G
  simp_all [view]

theorem Added.view_eq {d : VertexData} (h : Added g d v g') (hg : g.Consistent) :
    g'.view = g.view.setData v (startData d) := by
  refine h.consistent.view_eq (fun u => ?_) (fun a b => ?_) h.inputs_eq h.outputs_eq h.scalar_eq
  · rw [h.data?_eq, LabelledGraph.data_setData]
    rfl
  · rw [edgeKind?_eq_lookup, h.linksAt_eq, ← edgeKind?_eq_lookup]
    exact (hg.view_edge a b).symm

theorem Removed.view_eq (h : Removed g v g') (hg : g.Consistent) :
    g'.view = g.view.remove v := by
  refine h.consistent.view_eq (fun u => ?_) (fun a b => ?_) h.inputs_eq h.outputs_eq h.scalar_eq
  · rw [h.data?_eq, LabelledGraph.data_remove]
    rfl
  · show _ = if v ∈ s(a, b) then none else g.view.edge s(a, b)
    rw [hg.view_edge]
    by_cases ha : a = v
    · rw [if_pos (by simp [ha]), edgeKind?_eq_lookup, h.linksAt_eq, if_pos ha]
      rfl
    · rw [h.edgeKind?_eq_ite hg ha]
      by_cases hb : b = v
      · rw [if_pos hb, if_pos (by simp [hb])]
      · rw [if_neg hb, if_neg (by simp [Ne.symm ha, Ne.symm hb])]

theorem EdgeSet.view_eq (h : EdgeSet g s t o g') (hg : g.Consistent) :
    g'.view = g.view.setEdge s t o := by
  refine h.consistent.view_eq h.data?_eq (fun a b => ?_) h.inputs_eq h.outputs_eq h.scalar_eq
  rw [h.edgeKind?_eq, LabelledGraph.edge_setEdge, hg.view_edge]
  exact if_congr Sym2.eq_iff.symm rfl rfl

theorem view_setData {d : VertexData} (hg : g.Consistent) (hv : g.contains v = true) :
    (g.setData v d).view = g.view.setData v d := by
  refine (hg.setData d).view_eq (fun u => ?_) (fun a b => ?_) rfl rfl rfl
  · rw [data?_setData d hv, LabelledGraph.data_setData]
    rfl
  · rw [edgeKind?_eq_lookup, linksAt_setData, ← edgeKind?_eq_lookup]
    exact (hg.view_edge a b).symm

/-! ## Operations that follow their abstract counterparts -/

/-- Both computations give the same graph, the first one in a consistent arena, or both overflow. -/
def Tracks (x : Except Fault Diagram) (y : Except Fault LabelledGraph) : Prop :=
  (∃ g, x = .ok g ∧ g.Consistent ∧ y = .ok g.view) ∨
    x = .error .overflow ∧ y = .error .overflow

namespace Tracks

variable {x : Except Fault Diagram} {y : Except Fault LabelledGraph}

theorem of_view {G : LabelledGraph} (h : g.Consistent) (hG : g.view = G) :
    Tracks (.ok g) (.ok G) :=
  .inl ⟨g, rfl, h, congrArg _ hG.symm⟩

theorem bind {f : Diagram → Except Fault Diagram} {f' : LabelledGraph → Except Fault LabelledGraph}
    (h : Tracks x y) (hf : ∀ g, x = .ok g → g.Consistent → Tracks (f g) (f' g.view)) :
    Tracks (x >>= f) (y >>= f') := by
  obtain ⟨g, rfl, hg, rfl⟩ | ⟨rfl, rfl⟩ := h
  · exact hf g rfl hg
  · exact .inr ⟨rfl, rfl⟩

end Tracks

theorem modifyData_tracks {d : VertexData} (h : g.Consistent) (hd : g.data? v = some d)
    {f : VertexData → Except Fault VertexData} (hf : Ends (f d) (fun _ => True) (· = .overflow)) :
    Tracks ((f d).map (g.setData v)) (g.view.modifyData v f) := by
  rw [LabelledGraph.modifyData_of_data (show g.view.data v = some d from hd)]
  obtain ⟨d', hd', -⟩ | hover := hf.ok_or_error
  · rw [hd']
    exact .of_view (h.setData d') (view_setData h (contains_of_data? hd))
  · rw [hover]
    exact .inr ⟨rfl, rfl⟩

theorem addToPhase_tracks (h : g.Consistent) (hv : g.contains v = true) (p : Phase) :
    Tracks (g.addToPhase v p) (g.view.addToPhase v p) := by
  obtain ⟨d, hd⟩ := contains_iff_data?.mp hv
  have hmap : g.addToPhase v p =
      (do return { d with phase := ← d.phase.add p } : Except Fault VertexData).map
        (g.setData v) := by
    rw [addToPhase_eq hd]
    cases d.phase.add p <;> rfl
  rw [hmap]
  exact modifyData_tracks h hd (f := fun d => return { d with phase := ← d.phase.add p })
    ((Phase.add_ends d.phase p).bind fun _ _ => Ends.pure_iff.mpr trivial)

/-- Only the scalar changes. -/
theorem view_withScalar (h : g.Consistent) (c : Scalar) :
    ({ g with scalar := c } : Diagram).Consistent ∧
      ({ g with scalar := c } : Diagram).view = { g.view with scalar := c } :=
  ⟨h.congr (fun _ => rfl) (fun _ => rfl) rfl rfl rfl rfl, rfl⟩

theorem mulSqrt2Pow_tracks (h : g.Consistent) (k : ℤ) :
    Tracks (g.mulSqrt2Pow k) (g.view.mulSqrt2Pow k) := by
  rw [mulSqrt2Pow, LabelledGraph.mulSqrt2Pow, show g.view.scalar = g.scalar from rfl]
  obtain ⟨c, hc, -⟩ | hc := (g.scalar.mulSqrt2Pow_ends k).ok_or_error
  · rw [hc]
    exact .of_view (view_withScalar h c).1 (view_withScalar h c).2
  · rw [hc]
    exact .inr ⟨rfl, rfl⟩

theorem mulPhase_tracks (h : g.Consistent) (p : Phase) :
    Tracks (g.mulPhase p) (g.view.mulPhase p) := by
  rw [mulPhase, LabelledGraph.mulPhase, show g.view.scalar = g.scalar from rfl]
  obtain ⟨c, hc, -⟩ | hc := (g.scalar.mulPhase_ends p).ok_or_error
  · rw [hc]
    exact .of_view (view_withScalar h c).1 (view_withScalar h c).2
  · rw [hc]
    exact .inr ⟨rfl, rfl⟩

theorem absorbHadamard_tracks (h : g.Consistent) (hv : g.contains v = true) :
    Tracks (g.absorbHadamard v) (g.view.absorbHadamard v) :=
  (addToPhase_tracks h hv Phase.one).bind fun _ _ h₁ => mulSqrt2Pow_tracks h₁ (-1)

theorem mergeEdge_tracks (h : g.Consistent) {strong present : EdgeKind}
    (he : g.edgeKind? s t = some present) (e : EdgeKind) :
    Tracks (g.mergeEdge s t strong present e)
      (if present = strong then if e = strong then .ok g.view else g.view.absorbHadamard s
        else if e = strong then (g.view.setEdge s t (some strong)).absorbHadamard s
        else (g.view.setEdge s t none).mulSqrt2Pow (-2)) := by
  have hs := h.contains_left he
  unfold mergeEdge
  by_cases hp : present = strong
  · rw [if_pos hp, if_pos hp]
    by_cases hn : e = strong
    · rw [if_pos hn, if_pos hn]
      exact .of_view h rfl
    · rw [if_neg hn, if_neg hn]
      exact absorbHadamard_tracks h hs
  · rw [if_neg hp, if_neg hp]
    by_cases hn : e = strong
    · rw [if_pos hn, if_pos hn]
      obtain ⟨g₁, hg₁, h₁⟩ := setEdgeKind_edgeSet h he strong
      rw [hg₁, ← h₁.view_eq h]
      exact absorbHadamard_tracks h₁.consistent ((h₁.contains_eq s).trans hs)
    · rw [if_neg hn, if_neg hn, cancelEdge]
      obtain ⟨g₁, hg₁, h₁⟩ := removeEdge_edgeSet h he
      rw [hg₁, ← h₁.view_eq h]
      exact mulSqrt2Pow_tracks h₁.consistent (-2)

/-- The ends exist, and neither is a boundary where a loop or a second edge has to be absorbed. -/
theorem connect_tracks (h : g.Consistent) {k l : VertexKind} (hk : g.kind? s = some k)
    (hl : g.kind? t = some l)
    (hspider : s = t ∨ (g.edgeKind? s t).isSome = true → k ≠ .boundary ∧ l ≠ .boundary)
    (e : EdgeKind) : Tracks (g.connect s t e) (g.view.connect s t e) := by
  have hs := contains_of_kind? hk
  unfold connect LabelledGraph.connect
  rw [kind_of_kind? hk]
  change Tracks (if s = t then _ else _) _
  by_cases hst : s = t
  · have hb := (hspider (.inl hst)).1
    rw [if_pos hst, if_pos hst]
    cases k with
    | boundary => exact absurd rfl hb
    | z | x =>
      cases e with
      | plain => exact .of_view h rfl
      | hadamard => exact absorbHadamard_tracks h hs
  · rw [if_neg hst, if_neg hst, h.view_edge]
    cases he : g.edgeKind? s t with
    | none =>
        obtain ⟨g', hg', hset⟩ := addEdge_edgeSet h hst hs (contains_of_kind? hl) he e
        simp only [hg']
        exact .of_view hset.consistent (hset.view_eq h)
    | some present =>
        obtain ⟨hkb, hlb⟩ := hspider (.inr (by rw [he]; rfl))
        have hmerge (k : EdgeKind) := @mergeEdge_tracks _ _ _ h k _ he e
        simp only [kind_of_kind? hl, view_kind?, hk, hl]
        cases k with
        | boundary => exact absurd rfl hkb
        | z =>
            cases l with
            | boundary => exact absurd rfl hlb
            | z => exact hmerge .plain
            | x => exact hmerge .hadamard
        | x =>
            cases l with
            | boundary => exact absurd rfl hlb
            | z => exact hmerge .hadamard
            | x => exact hmerge .plain

/-! ## Counting edges -/

/-- The links of a vertex to far ends with a property, as a set of vertices. -/
theorem Consistent.length_filter_links (h : g.Consistent) (v : ℕ) (p : ℕ → Bool) :
    ((g.linksAt v).filter fun l => p l.1).length =
      ((range g.slots.size).filter fun u => g.connected v u = true ∧ p u = true).card := by
  have hnodup : (((g.linksAt v).map Prod.fst).filter p).Nodup := (h.nodup v).filter _
  have hset : (((g.linksAt v).map Prod.fst).filter p).toFinset =
      (range g.slots.size).filter fun u => g.connected v u = true ∧ p u = true := by
    ext u
    rw [List.mem_toFinset, List.mem_filter, mem_filter, mem_range, h.key_iff, connected,
      Option.isSome_iff_exists]
    constructor
    · rintro ⟨⟨e, he⟩, hp⟩
      exact ⟨lt_size_of_contains (h.contains_far he), ⟨e, he⟩, hp⟩
    · rintro ⟨-, he, hp⟩
      exact ⟨he, hp⟩
  rw [← hset, List.toFinset_card_of_nodup hnodup, List.filter_map, List.length_map]
  rfl

theorem length_edges_eq_sum (g : Diagram) : g.edges.length =
    ∑ v ∈ range g.slots.size, ((g.linksAt v).filter fun l => v ≤ l.1).length := by
  have hsum : g.edges.length =
      (g.vertices.map fun v => ((g.linksAt v).filter fun l => v ≤ l.1).length).sum := by
    rw [edges, List.length_flatMap]
    refine congrArg List.sum (List.map_congr_left fun v _ => ?_)
    cases hx : g.vertex? v with
    | none => simp [linksAt, hx]
    | some x => simp [linksAt, hx]
  rw [hsum, ← List.sum_toFinset _ g.nodup_vertices]
  refine sum_subset (fun v hv => ?_) fun v _ hv => ?_
  · exact mem_range.mpr (lt_size_of_contains (mem_support.mp hv))
  · have hnil := linksAt_eq_nil (Bool.eq_false_iff.mpr fun hc => hv (mem_support.mpr hc))
    rw [hnil]
    rfl

/-- Every edge is listed at its smaller end, so the list has half as many entries as all link lists
together. -/
theorem Consistent.length_edges (h : g.Consistent) : g.edges.length = g.edgeCount := by
  have hup : ∑ v ∈ range g.slots.size, ((g.linksAt v).filter fun l => v ≤ l.1).length =
      ∑ v ∈ range g.slots.size, ((g.linksAt v).filter fun l => l.1 < v).length := by
    have hleft (v : ℕ) := h.length_filter_links v fun u => decide (v ≤ u)
    have hright (v : ℕ) := h.length_filter_links v fun u => decide (u < v)
    simp only [hleft, hright, card_filter]
    rw [sum_comm]
    refine sum_congr rfl fun u _ => sum_congr rfl fun v _ => ?_
    have hcomm : g.connected u v = g.connected v u := by
      rw [connected, connected, h.edgeKind?_comm]
    by_cases hvu : v = u
    · subst hvu
      simp [connected, h.edgeKind?_self]
    · have hle : v ≤ u ↔ v < u := by omega
      simp [hcomm, hle]
  have hsplit : 2 * g.edgeCount = ∑ v ∈ range g.slots.size,
      (((g.linksAt v).filter fun l => v ≤ l.1).length +
        ((g.linksAt v).filter fun l => l.1 < v).length) := by
    rw [h.edgeCount_eq]
    refine sum_congr rfl fun v _ => ?_
    simp only [← List.countP_eq_length_filter]
    rw [List.length_eq_countP_add_countP fun l : Link => decide (v ≤ l.1)]
    simp
  rw [sum_add_distrib, ← hup] at hsplit
  rw [length_edges_eq_sum]
  omega

/-- The number that the next new vertex gets. -/
def nextNumber (g : Diagram) : ℕ := g.holes.head?.getD g.slots.size

theorem insertVertex_fst (g : Diagram) (d : VertexData) : (g.insertVertex d).1 = g.nextNumber := by
  cases hh : g.holes <;> simp [insertVertex, nextNumber, hh]

end Diagram

/-! ## Runs -/

inductive Operation where
  | addVertex (d : VertexData)
  | removeVertex (v : ℕ)
  | addEdge (s t : ℕ) (e : EdgeKind)
  | removeEdge (s t : ℕ)
  | setEdgeKind (s t : ℕ) (e : EdgeKind)
  | toggleEdge (s t : ℕ)
  | connect (s t : ℕ) (e : EdgeKind)
  | setKind (v : ℕ) (k : VertexKind)
  | setPhase (v : ℕ) (p : Phase)
  | addToPhase (v : ℕ) (p : Phase)
  | setQubit (v : ℕ) (x : Float)
  | setColumn (v : ℕ) (x : Float)
  | setInputs (vs : List ℕ)
  | setOutputs (vs : List ℕ)
  | mulSqrt2Pow (k : ℤ)
  | mulPhase (p : Phase)

namespace Operation

/-- The operation on the arena. -/
def run (g : Diagram) : Operation → Except Fault Diagram
  | addVertex d => return (← g.addVertex d).2
  | removeVertex v => g.removeVertex v
  | addEdge s t e => g.addEdge s t e
  | removeEdge s t => g.removeEdge s t
  | setEdgeKind s t e => g.setEdgeKind s t e
  | toggleEdge s t => g.toggleEdge s t
  | connect s t e => g.connect s t e
  | setKind v k => g.setKind v k
  | setPhase v p => g.setPhase v p
  | addToPhase v p => g.addToPhase v p
  | setQubit v x => g.setQubit v x
  | setColumn v x => g.setColumn v x
  | setInputs vs => return { g with inputs := vs }
  | setOutputs vs => return { g with outputs := vs }
  | mulSqrt2Pow k => g.mulSqrt2Pow k
  | mulPhase p => g.mulPhase p

/-- The update of the maps, where a new vertex gets the number `n`. -/
def act (n : ℕ) (G : LabelledGraph) : Operation → Except Fault LabelledGraph
  | addVertex d => return G.setData n (Diagram.startData d)
  | removeVertex v => return G.remove v
  | addEdge s t e | setEdgeKind s t e => return G.setEdge s t (some e)
  | removeEdge s t => return G.setEdge s t none
  | toggleEdge s t => return G.setEdge s t ((G.edge s(s, t)).map EdgeKind.flip)
  | connect s t e => G.connect s t e
  | setKind v k => G.modifyData v fun d => return { d with kind := k }
  | setPhase v p => G.modifyData v fun d => return { d with phase := p }
  | addToPhase v p => G.addToPhase v p
  | setQubit v x => G.modifyData v fun d => return { d with qubit := x }
  | setColumn v x => G.modifyData v fun d => return { d with column := x }
  | setInputs vs => return { G with inputs := vs }
  | setOutputs vs => return { G with outputs := vs }
  | mulSqrt2Pow k => G.mulSqrt2Pow k
  | mulPhase p => G.mulPhase p

/-- The vertices and the edge that the operation works on exist, a new edge is none yet, and an edge
to be absorbed is not at a boundary. -/
def Allowed (G : LabelledGraph) : Operation → Prop
  | removeVertex v | setKind v _ | setPhase v _ | addToPhase v _ | setQubit v _ | setColumn v _ =>
      (G.data v).isSome = true
  | addEdge s t _ => s ≠ t ∧ (G.data s).isSome = true ∧ (G.data t).isSome = true ∧
      G.edge s(s, t) = none
  | removeEdge s t | setEdgeKind s t _ | toggleEdge s t => (G.edge s(s, t)).isSome = true
  | connect s t _ => (G.data s).isSome = true ∧ (G.data t).isSome = true ∧
      (s = t ∨ (G.edge s(s, t)).isSome = true →
        G.kind? s ≠ some .boundary ∧ G.kind? t ≠ some .boundary)
  | addVertex _ | setInputs _ | setOutputs _ | mulSqrt2Pow _ | mulPhase _ => True

open Diagram

/-- One operation keeps the arena consistent and is the update of the maps, unless there is no slot
left for a new vertex. -/
theorem run_tracks {g : Diagram} (h : g.Consistent) (op : Operation) (hop : op.Allowed g.view) :
    Tracks (op.run g) (op.act g.nextNumber g.view) ∨
      (∃ d, op = .addVertex d) ∧ op.run g = .error .tooLarge ∧ 2 ^ 57 ≤ g.vertexCount := by
  have hcontains : ∀ {v}, (g.view.data v).isSome = true → g.contains v = true := by
    intro v hv
    rw [contains_eq_data?_isSome]
    exact hv
  have hedge : ∀ {s t}, (g.view.edge s(s, t)).isSome = true → ∃ e, g.edgeKind? s t = some e := by
    intro s t he
    rw [h.view_edge] at he
    exact Option.isSome_iff_exists.mp he
  have hset : ∀ {v : ℕ} (f : VertexData → VertexData), (g.view.data v).isSome = true →
      ∀ x, (∀ d, g.data? v = some d → x = .ok (g.setData v (f d))) →
        Tracks x (g.view.modifyData v fun d => return f d) := by
    intro v f hv x hx
    obtain ⟨d, hd⟩ := contains_iff_data?.mp (hcontains hv)
    rw [hx d hd]
    exact modifyData_tracks h hd (f := fun d => return f d) (Ends.pure_iff.mpr trivial)
  cases op with
  | addVertex d =>
      cases hr : g.addVertex d with
      | error e =>
          obtain ⟨rfl, hfull⟩ := (addVertex_ends h d).2 e hr
          refine .inr ⟨⟨d, rfl⟩, ?_, hfull⟩
          simp only [run, hr]
          rfl
      | ok r =>
          have hadded := ((addVertex_ends h d).of_eq_ok hr).1
          refine .inl ?_
          simp only [run, hr]
          refine .of_view hadded.consistent ?_
          rw [hadded.view_eq h, ← insertVertex_eq hr, insertVertex_fst]
  | removeVertex v =>
      obtain ⟨g', hg', hremoved⟩ := removeVertex_removed h (hcontains hop)
      simp only [run, hg']
      exact .inl (.of_view hremoved.consistent (hremoved.view_eq h))
  | addEdge s t e =>
      obtain ⟨hst, hs, ht, hnone⟩ := hop
      rw [h.view_edge] at hnone
      obtain ⟨g', hg', hnew⟩ := addEdge_edgeSet h hst (hcontains hs) (hcontains ht) hnone e
      simp only [run, hg']
      exact .inl (.of_view hnew.consistent (hnew.view_eq h))
  | removeEdge s t =>
      obtain ⟨e, he⟩ := hedge hop
      obtain ⟨g', hg', hnew⟩ := removeEdge_edgeSet h he
      simp only [run, hg']
      exact .inl (.of_view hnew.consistent (hnew.view_eq h))
  | setEdgeKind s t e =>
      obtain ⟨e', he⟩ := hedge hop
      obtain ⟨g', hg', hnew⟩ := setEdgeKind_edgeSet h he e
      simp only [run, hg']
      exact .inl (.of_view hnew.consistent (hnew.view_eq h))
  | toggleEdge s t =>
      obtain ⟨e, he⟩ := hedge hop
      obtain ⟨g', hg', hnew⟩ := toggleEdge_edgeSet h he
      simp only [run, hg', act, h.view_edge, he]
      exact .inl (.of_view hnew.consistent (hnew.view_eq h))
  | connect s t e =>
      obtain ⟨hs, ht, hspider⟩ := hop
      obtain ⟨k, hk⟩ := exists_kind? (hcontains hs)
      obtain ⟨l, hl⟩ := exists_kind? (hcontains ht)
      rw [h.view_edge, view_kind?, view_kind?, hk, hl] at hspider
      refine .inl (connect_tracks h hk hl (fun hmerge => ?_) e)
      exact (hspider hmerge).imp (fun hne hb => hne (congrArg some hb))
        fun hne hb => hne (congrArg some hb)
  | setKind v k =>
      exact .inl (hset (fun d => { d with kind := k }) hop _ fun d hd => setKind_eq hd k)
  | setPhase v p =>
      exact .inl (hset (fun d => { d with phase := p }) hop _ fun d hd => setPhase_eq hd p)
  | addToPhase v p => exact .inl (addToPhase_tracks h (hcontains hop) p)
  | setQubit v x =>
      exact .inl (hset (fun d => { d with qubit := x }) hop _ fun d hd => setQubit_eq hd x)
  | setColumn v x =>
      exact .inl (hset (fun d => { d with column := x }) hop _ fun d hd => setColumn_eq hd x)
  | setInputs vs =>
      exact .inl (.of_view (h.congr (fun _ => rfl) (fun _ => rfl) rfl rfl rfl rfl) rfl)
  | setOutputs vs =>
      exact .inl (.of_view (h.congr (fun _ => rfl) (fun _ => rfl) rfl rfl rfl rfl) rfl)
  | mulSqrt2Pow k => exact .inl (mulSqrt2Pow_tracks h k)
  | mulPhase p => exact .inl (mulPhase_tracks h p)

end Operation

namespace Diagram

variable {g : Diagram}

/-- The diagrams that come out of runs of operations. -/
inductive Built : Diagram → Prop where
  | empty : Built Diagram.empty
  | step {g g' : Diagram} (h : Built g) (op : Operation) (hop : op.Allowed g.view)
      (hrun : op.run g = .ok g') : Built g'

theorem Built.consistent (h : Built g) : g.Consistent := by
  induction h with
  | empty => exact consistent_empty
  | step _ op hop hrun ih =>
      obtain (⟨g', hg', hcons, -⟩ | ⟨hover, -⟩) | ⟨-, hfull, -⟩ := op.run_tracks ih hop
      · rw [hrun, Except.ok.injEq] at hg'
        rw [hg']
        exact hcons
      · rw [hrun] at hover
        cases hover
      · rw [hrun] at hfull
        cases hfull

end Diagram

end ZX
