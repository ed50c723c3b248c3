import Mathlib
import ZX.Diagram.Tables
import ZX.Proofs.Arena.Refinement

/-!
# The two tables agree

A diagram keeps the data and the links of a vertex together, and `Diagram.tables` takes them apart.
Every operation on two tables is the same operation on the diagram they come from, so tables that
operations have built come from a diagram: they are equally long and occupied at the same slots, and
what the arena guarantees holds of them.
-/
namespace ZX

open Finset

/-- The slots of a diagram in two tables. -/
def Diagram.tables (g : Diagram) : Tables where
  data := g.slots.map (Option.map Vertex.data)
  links := g.slots.map (Option.map Vertex.links)
  holes := g.holes
  inputs := g.inputs
  outputs := g.outputs
  vertexCount := g.vertexCount
  edgeCount := g.edgeCount
  scalar := g.scalar

/-! ## Reading -/

namespace Diagram

variable {g : Diagram} {s t v : ℕ}

theorem data?_tables (g : Diagram) (v : ℕ) : g.tables.data? v = g.data? v := by
  rw [Tables.data?, tables, Array.getElem?_map, data?, vertex?]
  cases g.slots[v]? with
  | none => rfl
  | some o => cases o <;> rfl

theorem links?_tables (g : Diagram) (v : ℕ) :
    g.tables.links? v = (g.vertex? v).map Vertex.links := by
  rw [Tables.links?, tables, Array.getElem?_map, vertex?]
  cases g.slots[v]? with
  | none => rfl
  | some o => cases o <;> rfl

theorem dataAt_tables (g : Diagram) (v : ℕ) : g.tables.dataAt v = g.data v := by
  rw [Tables.dataAt, tables, Array.getElem?_map, data]
  cases g.slots[v]? with
  | none => rfl
  | some o => cases o <;> rfl

theorem kind_tables (g : Diagram) (v : ℕ) : g.tables.kind v = g.kind v := by
  rw [Tables.kind, dataAt_tables, kind]

theorem edgeKind?_tables (g : Diagram) (s t : ℕ) : g.tables.edgeKind? s t = g.edgeKind? s t := by
  rw [Tables.edgeKind?, links?_tables, edgeKind?]
  cases g.vertex? s <;> rfl

theorem vertices_tables (g : Diagram) : g.tables.vertices = g.vertices := by
  have hsize : g.tables.data.size = g.slots.size := Array.size_map
  rw [Tables.vertices, vertices, hsize]
  refine List.filter_congr fun v _ => ?_
  rw [data?_tables, contains_eq_data?_isSome]

theorem edges_tables (g : Diagram) : g.tables.edges = g.edges := by
  have hsize : g.tables.links.size = g.slots.size := Array.size_map
  rw [Tables.edges, edges, vertices, hsize]
  induction List.range g.slots.size with
  | nil => rfl
  | cons v vs ih =>
      rw [List.flatMap_cons, ih, links?_tables, List.filter_cons, contains]
      cases hv : g.vertex? v with
      | none => simp
      | some x => simp [hv]

/-! ## Writing -/

theorem map_modify {α β : Type} {xs : Array α} {i : ℕ} {f : α → α} {h : α → β} {k : β → β}
    (hf : ∀ x, h (f x) = k (h x)) : (xs.modify i f).map h = (xs.map h).modify i k := by
  refine Array.ext_getElem? fun j => ?_
  simp only [Array.getElem?_map, Array.getElem?_modify]
  split
  · rw [Option.map_map, Option.map_map]
    exact congrArg (Option.map · _) (funext hf)
  · rfl

theorem modify_eq_set {α : Type} {xs : Array α} {i : ℕ} {x : α} (hi : xs[i]? = some x)
    (f : α → α) : xs.modify i f = xs.setIfInBounds i (f x) := by
  refine Array.ext_getElem? fun j => ?_
  rw [Array.getElem?_modify, Array.getElem?_setIfInBounds]
  by_cases hij : i = j
  · subst hij
    obtain ⟨hlt, -⟩ := Array.getElem?_eq_some_iff.mp hi
    rw [if_pos rfl, if_pos rfl, if_pos hlt, hi]
    rfl
  · rw [if_neg hij, if_neg hij]

theorem modify_id {α : Type} (xs : Array α) (i : ℕ) : xs.modify i id = xs := by
  refine Array.ext_getElem? fun j => ?_
  rw [Array.getElem?_modify]
  split <;> simp

/-- The two tables of other slots. -/
theorem tables_withSlots {slots : Array (Option Vertex)} {data : Array (Option VertexData)}
    {links : Array (Option (List Link))} (hdata : slots.map (Option.map Vertex.data) = data)
    (hlinks : slots.map (Option.map Vertex.links) = links) :
    ({ g with slots := slots } : Diagram).tables =
      { g.tables with data := data, links := links } := by
  subst hdata hlinks
  rfl

theorem tables_modifyLinks (g : Diagram) (v : ℕ) (f : List Link → List Link) :
    (g.modifyLinks v f).tables =
      { g.tables with links := g.tables.links.modify v (Option.map f) } := by
  refine tables_withSlots ?_ ?_
  · refine (map_modify fun o => ?_).trans (modify_id _ v)
    cases o <;> rfl
  · refine map_modify fun o => ?_
    cases o <;> rfl

theorem tables_setData {d d' : VertexData} (hv : g.data? v = some d) :
    (g.setData v d').tables = { g.tables with data := g.tables.data.setIfInBounds v (some d') } := by
  obtain ⟨x, hx, -⟩ := Option.map_eq_some_iff.mp hv
  have hslot : g.tables.data[v]? = some (some x.data) := by
    rw [tables, Array.getElem?_map, Option.join_eq_some_iff.mp hx]
    rfl
  refine tables_withSlots ?_ ?_
  · refine (map_modify (k := Option.map fun _ => d') fun o => ?_).trans (modify_eq_set hslot _)
    cases o <;> rfl
  · refine (map_modify fun o => ?_).trans (modify_id _ v)
    cases o <;> rfl

end Diagram

/-! ## Operations -/

/-- A computation on tables does what one on diagrams does. -/
def Follows (x : Except Fault Tables) (y : Except Fault Diagram) : Prop := x = y.map Diagram.tables

namespace Follows

variable {x : Except Fault Tables} {y : Except Fault Diagram}

theorem ok {t : Tables} {g : Diagram} (h : g.tables = t) : Follows (.ok t) (.ok g) :=
  congrArg Except.ok h.symm

theorem error (e : Fault) : Follows (.error e) (.error e) := rfl

theorem bind {f : Tables → Except Fault Tables} {f' : Diagram → Except Fault Diagram}
    (h : Follows x y) (hf : ∀ g, Follows (f g.tables) (f' g)) : Follows (x >>= f) (y >>= f') := by
  rw [h]
  cases y with
  | error e => exact error e
  | ok g => exact hf g

theorem bind_same {α : Type} {z : Except Fault α} {f : α → Except Fault Tables}
    {f' : α → Except Fault Diagram} (hf : ∀ a, z = .ok a → Follows (f a) (f' a)) :
    Follows (z >>= f) (z >>= f') := by
  cases z with
  | error e => exact error e
  | ok a => exact hf a rfl

theorem foldlM {α : Type} {f : Tables → α → Except Fault Tables}
    {f' : Diagram → α → Except Fault Diagram} (hf : ∀ g a, Follows (f g.tables a) (f' g a))
    (l : List α) {t : Tables} {g : Diagram} (h : g.tables = t) :
    Follows (l.foldlM f t) (l.foldlM f' g) := by
  induction l generalizing t g with
  | nil => exact ok h
  | cons a l ih =>
      subst h
      exact (hf g a).bind fun _ => ih rfl

end Follows

namespace Diagram

variable {g : Diagram} {s t v : ℕ} {e : EdgeKind}

/-- Setters read the data of a vertex and write it back. -/
theorem modifyData_follows (g : Diagram) (v : ℕ) (f : VertexData → Except Fault VertexData) :
    Follows (g.tables.modifyData v f) (do
      let d ← g.data v
      let d' ← f d
      return g.setData v d') := by
  unfold Tables.modifyData
  rw [dataAt_tables]
  refine .bind_same fun d hd => .bind_same fun d' _ => .ok ?_
  exact tables_setData (data_eq_ok.mp hd)

theorem addToPhase_follows (g : Diagram) (v : ℕ) (p : Phase) :
    Follows (g.tables.addToPhase v p) (g.addToPhase v p) := by
  have h := modifyData_follows g v fun d => return { d with phase := ← d.phase.add p }
  simpa [Diagram.addToPhase, Tables.addToPhase, bind_assoc] using h

theorem mulSqrt2Pow_follows (g : Diagram) (k : ℤ) :
    Follows (g.tables.mulSqrt2Pow k) (g.mulSqrt2Pow k) :=
  .bind_same fun _ _ => .ok rfl

theorem mulPhase_follows (g : Diagram) (p : Phase) :
    Follows (g.tables.mulPhase p) (g.mulPhase p) :=
  .bind_same fun _ _ => .ok rfl

theorem absorbHadamard_follows (g : Diagram) (v : ℕ) :
    Follows (g.tables.absorbHadamard v) (g.absorbHadamard v) :=
  (addToPhase_follows g v Phase.one).bind fun g' => mulSqrt2Pow_follows g' (-1)

theorem tables_eraseHalf (g : Diagram) (s t : ℕ) :
    (g.eraseHalf s t).tables = g.tables.eraseHalf s t := tables_modifyLinks g s _

theorem removeEdge_follows (g : Diagram) (s t : ℕ) :
    Follows (g.tables.removeEdge s t) (g.removeEdge s t) := by
  refine .bind_same fun m _ => .ok ?_
  rw [tables_eraseHalf, tables_eraseHalf]
  rfl

/-- A list of links is written where it was read. -/
theorem tables_setLinks {x : Vertex} (hv : g.vertex? v = some x) (f : List Link → List Link) :
    (g.modifyLinks v f).tables =
      { g.tables with links := g.tables.links.setIfInBounds v (some (f x.links)) } := by
  have hslot : g.tables.links[v]? = some (some x.links) := by
    rw [tables, Array.getElem?_map, Option.join_eq_some_iff.mp hv]
    rfl
  rw [tables_modifyLinks, modify_eq_set hslot]
  rfl

theorem pushLink_follows (g : Diagram) (v : ℕ) (l : Link) (missing : Fault) :
    Follows (g.tables.pushLink v l missing)
      (if !g.contains v then .error missing else .ok (g.modifyLinks v (· ++ [l]))) := by
  unfold Tables.pushLink contains
  rw [links?_tables]
  cases hv : g.vertex? v with
  | none => exact .error missing
  | some x => exact .ok (tables_setLinks hv _)

theorem addEdge_follows (g : Diagram) (s t : ℕ) (e : EdgeKind) :
    Follows (g.tables.addEdge s t e) (g.addEdge s t e) := by
  have hpush : Follows (g.tables.addEdge s t e)
      ((if !g.contains s then .error .noSource
        else .ok ({ g with edgeCount := g.edgeCount + 1 }.modifyLinks s (· ++ [(t, e)]))) >>=
      fun g' => if !g'.contains t then .error .noTarget
        else .ok (g'.modifyLinks t (· ++ [(s, e)]))) :=
    (pushLink_follows { g with edgeCount := g.edgeCount + 1 } s (t, e) .noSource).bind
      fun g' => pushLink_follows g' t (s, e) .noTarget
  refine hpush.trans (congrArg (Except.map tables) ?_)
  unfold addEdge
  cases g.contains s with
  | false => rfl
  | true =>
      show (if !(modifyVertex _ s _).contains t then _ else _) = if !g.contains t then _ else _
      rw [contains_modifyVertex]
      rfl

theorem setHalfKind_follows (g : Diagram) (s t : ℕ) (e : EdgeKind) :
    Follows (g.tables.setHalfKind s t e) (g.setHalfKind s t e) := by
  unfold Tables.setHalfKind setHalfKind links
  rw [links?_tables]
  cases hv : g.vertex? s with
  | none => exact .error _
  | some x =>
      cases hi : x.links.findIdx? (·.1 == t) with
      | none =>
          simp only [Option.map_some, bind, Except.bind, hi]
          exact .error _
      | some i =>
          simp only [Option.map_some, bind, Except.bind, hi]
          exact .ok (tables_setLinks hv _)

theorem setEdgeKind_follows (g : Diagram) (s t : ℕ) (e : EdgeKind) :
    Follows (g.tables.setEdgeKind s t e) (g.setEdgeKind s t e) :=
  (setHalfKind_follows g s t e).bind fun g' => setHalfKind_follows g' t s e

theorem toggleEdge_follows (g : Diagram) (s t : ℕ) :
    Follows (g.tables.toggleEdge s t) (g.toggleEdge s t) := by
  unfold Tables.toggleEdge toggleEdge edgeKind
  rw [edgeKind?_tables]
  cases g.edgeKind? s t with
  | none => exact .error _
  | some e => exact setEdgeKind_follows g s t e.flip

theorem mergeEdge_follows (g : Diagram) (s t : ℕ) (strong present new : EdgeKind) :
    Follows (g.tables.mergeEdge s t strong present new) (g.mergeEdge s t strong present new) := by
  unfold Tables.mergeEdge mergeEdge cancelEdge
  split
  · split
    · exact .ok rfl
    · exact absorbHadamard_follows g s
  · split
    · exact (setEdgeKind_follows g s t strong).bind fun g' => absorbHadamard_follows g' s
    · exact (removeEdge_follows g s t).bind fun g' => mulSqrt2Pow_follows g' (-2)

theorem connect_follows (g : Diagram) (s t : ℕ) (e : EdgeKind) :
    Follows (g.tables.connect s t e) (g.connect s t e) := by
  unfold Tables.connect connect
  rw [kind_tables, kind_tables, edgeKind?_tables]
  refine .bind_same fun k _ => ?_
  by_cases hst : s = t
  · rw [if_pos hst, if_pos hst]
    cases k with
    | boundary => exact .error _
    | z | x =>
        cases e with
        | plain => exact .ok rfl
        | hadamard => exact absorbHadamard_follows g s
  · rw [if_neg hst, if_neg hst]
    cases g.edgeKind? s t with
    | none => exact addEdge_follows g s t e
    | some present =>
        refine .bind_same fun l _ => ?_
        cases k <;> cases l <;>
          first
            | exact .error _
            | exact mergeEdge_follows g s t _ present e

/-- One slot is written, and a vertex is counted or no longer counted. -/
theorem tables_setSlot (g : Diagram) (v : ℕ) (o : Option Vertex) (holes : List ℕ) (n : ℕ) :
    ({ g with
        slots := g.slots.setIfInBounds v o
        holes := holes
        vertexCount := n } : Diagram).tables =
      { g.tables with
        data := g.tables.data.setIfInBounds v (o.map Vertex.data)
        links := g.tables.links.setIfInBounds v (o.map Vertex.links)
        holes := holes
        vertexCount := n } :=
  tables_withSlots (g := { g with holes := holes, vertexCount := n }) Array.map_setIfInBounds
    Array.map_setIfInBounds

theorem tables_pushSlot (g : Diagram) (x : Vertex) (n : ℕ) :
    ({ g with slots := g.slots.push (some x), holes := [], vertexCount := n } : Diagram).tables =
      { g.tables with
        data := g.tables.data.push (some x.data)
        links := g.tables.links.push (some x.links)
        holes := []
        vertexCount := n } :=
  tables_withSlots (g := { g with holes := [], vertexCount := n }) Array.map_push Array.map_push

/-- The last free slot is one of the slots. -/
theorem addVertex_tables (h : g.Consistent) (d : VertexData) :
    g.tables.addVertex d = (g.addVertex d).map fun r => (r.1, r.2.tables) := by
  have hsize : g.tables.data.size = g.slots.size := Array.size_map
  have hsize' : g.tables.links.size = g.slots.size := Array.size_map
  unfold Tables.addVertex addVertex checkSlot insertVertex
  rw [show g.tables.holes = g.holes from rfl]
  cases hholes : g.holes with
  | nil =>
      dsimp only
      rw [hsize, hsize', Array.size_push, hsize]
      cases hpush : checkPush g.slots.size 40 with
      | error f => rfl
      | ok =>
          have hpush' : checkPush g.slots.size 24 = .ok () := by
            have hfits := checkTable_eq_ok.mp hpush
            exact checkTable_eq_ok.mpr (by omega)
          rw [hpush']
          refine congrArg Except.ok (Prod.ext rfl ?_)
          exact (tables_pushSlot g ⟨startData d, []⟩ (g.vertexCount + 1)).symm
  | cons v rest =>
      have hv : v < g.slots.size := (h.mem_holes.mp (by simp [hholes])).1
      simp only [Tables.write, hsize, hsize', if_pos hv]
      refine congrArg Except.ok (Prod.ext rfl ?_)
      exact (tables_setSlot g v (some ⟨startData d, []⟩) rest (g.vertexCount + 1)).symm

theorem removeHalf_follows (g : Diagram) (u v : ℕ) :
    Follows (do
      let m ← natSub g.tables.edgeCount 1
      return { g.tables with edgeCount := m }.eraseHalf u v) (do
      let m ← natSub g.edgeCount 1
      return { g with edgeCount := m }.eraseHalf u v) :=
  .bind_same fun _ _ => .ok (tables_eraseHalf _ u v)

theorem removeVertex_follows (g : Diagram) (v : ℕ) :
    Follows (g.tables.removeVertex v) (g.removeVertex v) := by
  unfold Tables.removeVertex removeVertex
  have hslot : g.tables.links[v]? = g.slots[v]?.map (Option.map Vertex.links) := by
    rw [tables, Array.getElem?_map]
  rw [hslot]
  cases hv : g.slots[v]? with
  | none => exact .error _
  | some o =>
      cases o with
      | none => exact .error _
      | some x =>
          have hlt : v < g.slots.size := (Array.getElem?_eq_some_iff.mp hv).1
          have hdata : v < g.tables.data.size := hlt.trans_eq Array.size_map.symm
          refine .bind_same fun n _ => ?_
          simp only [Tables.write, if_pos hdata]
          exact .foldlM (fun g l => removeHalf_follows g l.1 v) x.links
            (tables_setSlot g v none (v :: g.holes) n)

end Diagram

/-! ## Runs -/

/-- The operation on tables. -/
def Operation.store (t : Tables) : Operation → Except Fault Tables
  | addVertex d => return (← t.addVertex d).2
  | removeVertex v => t.removeVertex v
  | addEdge a b e => t.addEdge a b e
  | removeEdge a b => t.removeEdge a b
  | setEdgeKind a b e => t.setEdgeKind a b e
  | toggleEdge a b => t.toggleEdge a b
  | connect a b e => t.connect a b e
  | setKind v k => t.modifyData v fun d => return { d with kind := k }
  | setPhase v p => t.modifyData v fun d => return { d with phase := p }
  | addToPhase v p => t.addToPhase v p
  | setQubit v x => t.modifyData v fun d => return { d with qubit := x }
  | setColumn v x => t.modifyData v fun d => return { d with column := x }
  | setInputs vs => return { t with inputs := vs }
  | setOutputs vs => return { t with outputs := vs }
  | mulSqrt2Pow k => t.mulSqrt2Pow k
  | mulPhase p => t.mulPhase p

/-- On the tables of a diagram every operation is the one on the diagram. -/
theorem Operation.store_follows {g : Diagram} (h : g.Consistent) (op : Operation) :
    Follows (op.store g.tables) (op.run g) := by
  cases op with
  | addVertex d =>
      simp only [store, run, Diagram.addVertex_tables h]
      cases g.addVertex d <;> rfl
  | removeVertex v => exact g.removeVertex_follows v
  | addEdge a b e => exact g.addEdge_follows a b e
  | removeEdge a b => exact g.removeEdge_follows a b
  | setEdgeKind a b e => exact g.setEdgeKind_follows a b e
  | toggleEdge a b => exact g.toggleEdge_follows a b
  | connect a b e => exact g.connect_follows a b e
  | setKind v k => exact g.modifyData_follows v _
  | setPhase v p => exact g.modifyData_follows v _
  | addToPhase v p => exact g.addToPhase_follows v p
  | setQubit v x => exact g.modifyData_follows v _
  | setColumn v x => exact g.modifyData_follows v _
  | setInputs vs => exact .ok rfl
  | setOutputs vs => exact .ok rfl
  | mulSqrt2Pow k => exact g.mulSqrt2Pow_follows k
  | mulPhase p => exact g.mulPhase_follows p

namespace Tables

variable {t : Tables}

/-- The maps that the tables stand for. -/
def view (t : Tables) : LabelledGraph where
  data := t.data?
  edge pair := t.edgeKind? pair.inf pair.sup
  inputs := t.inputs
  outputs := t.outputs
  scalar := t.scalar

/-- The links of a vertex, or none if there is no such vertex. -/
def linksAt (t : Tables) (v : ℕ) : List Link := (t.links? v).getD []

/-- The number that the next new vertex gets. -/
def nextNumber (t : Tables) : ℕ := t.holes.head?.getD t.data.size

end Tables

namespace Diagram

theorem view_tables (g : Diagram) : g.tables.view = g.view := by
  unfold Tables.view view
  rw [show g.tables.data? = g.data? from funext g.data?_tables]
  simp only [edgeKind?_tables]
  rfl

theorem linksAt_tables (g : Diagram) (v : ℕ) : g.tables.linksAt v = g.linksAt v := by
  rw [Tables.linksAt, links?_tables, linksAt]
  cases g.vertex? v <;> rfl

theorem nextNumber_tables (g : Diagram) : g.tables.nextNumber = g.nextNumber := by
  rw [Tables.nextNumber, nextNumber, show g.tables.data.size = g.slots.size from Array.size_map]
  rfl

end Diagram

namespace Tables

variable {t : Tables}

/-- The tables that come out of runs of operations. -/
inductive Built : Tables → Prop where
  | empty : Built Tables.empty
  | step {t t' : Tables} (h : Built t) (op : Operation) (hop : op.Allowed t.view)
      (hrun : op.store t = .ok t') : Built t'

/-- A run on tables is a run on a diagram. -/
theorem Built.exists_diagram (h : t.Built) : ∃ g : Diagram, g.Built ∧ g.tables = t := by
  induction h with
  | empty => exact ⟨.empty, .empty, by simp [Diagram.tables, Diagram.empty, Tables.empty]⟩
  | step _ op hop hrun ih =>
      obtain ⟨g, hg, rfl⟩ := ih
      have hfollows := op.store_follows hg.consistent
      rw [Follows, hrun] at hfollows
      cases hg' : op.run g with
      | error e =>
          rw [hg'] at hfollows
          cases hfollows
      | ok g' =>
          rw [hg'] at hfollows
          rw [Diagram.view_tables] at hop
          exact ⟨g', hg.step op hop hg', (Except.ok.inj hfollows).symm⟩

/-- In tables that operations have built, both tables are equally long and occupied at the same
slots, the holes are the slots that are free, every edge is stored once at each of its ends, and the
counters count. Every operation is the update of the maps that the tables stand for; a phase or a
scalar may overflow in both, and with `2 ^ 57` vertices there may be no room for another one. The
tables are those of a diagram, and stay so with every operation. -/
theorem Built.refines_graph (h : t.Built) :
    (t.data.size = t.links.size ∧ ∀ v, (t.data? v).isSome = (t.links? v).isSome) ∧
    ((∀ v, v ∈ t.holes ↔ v < t.data.size ∧ t.data? v = none) ∧ t.holes.Nodup) ∧
    ((∀ a b e, (b, e) ∈ t.linksAt a ↔ (a, e) ∈ t.linksAt b) ∧
      (∀ a, ((t.linksAt a).map Prod.fst).Nodup) ∧
      ∀ a b e, (b, e) ∈ t.linksAt a →
        a ≠ b ∧ (t.data? a).isSome = true ∧ (t.data? b).isSome = true) ∧
    (t.vertexCount = t.vertices.length ∧
      2 * t.edgeCount = ∑ v ∈ range t.links.size, (t.linksAt v).length ∧
      t.edgeCount = t.edges.length) ∧
    (t.view.data t.nextNumber = none ∧ ∀ d r, t.addVertex d = .ok r → r.1 = t.nextNumber) ∧
    (∀ op : Operation, op.Allowed t.view →
      (∃ t', op.store t = .ok t' ∧ op.act t.nextNumber t.view = .ok t'.view) ∨
      op.store t = .error .overflow ∧ op.act t.nextNumber t.view = .error .overflow ∨
      (∃ d, op = .addVertex d) ∧ op.store t = .error .tooLarge ∧ 2 ^ 57 ≤ t.vertexCount) ∧
    ∃ g : Diagram, g.Built ∧ g.tables = t ∧
      ∀ op : Operation, op.store t = (op.run g).map Diagram.tables := by
  obtain ⟨g, hg, rfl⟩ := h.exists_diagram
  have hcons := hg.consistent
  have hdata : g.tables.data.size = g.slots.size := Array.size_map
  have hlinks : g.tables.links.size = g.slots.size := Array.size_map
  simp only [hdata, hlinks, g.data?_tables, g.links?_tables, g.linksAt_tables, g.vertices_tables,
    g.edges_tables, g.view_tables, g.nextNumber_tables]
  refine ⟨⟨trivial, ?occupied⟩, ⟨?holes, hcons.nodup_holes⟩,
    ⟨fun a b e => ⟨hcons.symm, hcons.symm⟩, hcons.nodup, ?ends⟩,
    ⟨hcons.vertexCount_eq.trans g.card_support, hcons.edgeCount_eq, hcons.length_edges.symm⟩,
    ⟨?fresh, ?number⟩, ?updates, g, hg, rfl, fun op => op.store_follows hcons⟩
  case occupied =>
    intro v
    rw [Option.isSome_map, Diagram.data?, Option.isSome_map]
  case holes =>
    intro v
    rw [show g.tables.holes = g.holes from rfl, hcons.mem_holes, Diagram.contains_eq_data?_isSome]
    simp
  case ends =>
    intro a b e hl
    rw [← Diagram.contains_eq_data?_isSome, ← Diagram.contains_eq_data?_isSome]
    exact ⟨(hcons.ne hl).symm, Diagram.contains_of_mem_linksAt hl, hcons.contains_right hl⟩
  case fresh =>
    have hfresh := (Diagram.insertVertex_added hcons (.ofKind .z)).fresh
    rw [g.insertVertex_fst, Diagram.contains_eq_data?_isSome] at hfresh
    exact Option.not_isSome_iff_eq_none.mp (Bool.eq_false_iff.mp hfresh)
  case number =>
    intro d r hr
    rw [Diagram.addVertex_tables hcons] at hr
    cases hadd : g.addVertex d with
    | error e =>
        rw [hadd] at hr
        cases hr
    | ok r' =>
        rw [hadd] at hr
        cases hr
        rw [← g.insertVertex_fst d, Diagram.insertVertex_eq hadd]
  case updates =>
    intro op hop
    rw [op.store_follows hcons]
    obtain (⟨g', hg', -, hview⟩ | ⟨hover, hover'⟩) | ⟨hd, hlarge, hfull⟩ := op.run_tracks hcons hop
    · refine .inl ⟨g'.tables, ?_, ?_⟩
      · rw [hg']
        rfl
      · rw [hview, g'.view_tables]
    · refine .inr (.inl ⟨?_, hover'⟩)
      rw [hover]
      rfl
    · refine .inr (.inr ⟨hd, ?_, hfull⟩)
      rw [hlarge]
      rfl

/-- Three spiders, of which the last is removed again. Two Hadamard edges between the others cancel,
in the tables and in the maps. -/
theorem Built.refines_graph_parallel : ∃ t t' : Tables, t.Built ∧ t.holes = [2] ∧
    t.data.size = 3 ∧ t.links.size = 3 ∧ t.edgeKind? 0 1 = some .hadamard ∧
    (Operation.connect 0 1 .hadamard).store t = .ok t' ∧ t'.edgeKind? 0 1 = none ∧
    (Operation.connect 0 1 .hadamard).act t.nextNumber t.view = .ok t'.view := by
  let spider : Operation := .addVertex (.ofKind .z)
  have htwo := (Built.empty.step spider trivial rfl).step spider trivial rfl
  have hjoined := htwo.step (.connect 0 1 .hadamard) ⟨rfl, rfl, fun _ => ⟨by decide, by decide⟩⟩ rfl
  have hfree := (hjoined.step spider trivial rfl).step (.removeVertex 2) rfl rfl
  obtain ⟨⟨hsize, -⟩, -, -, -, -, hrefines, -⟩ := hfree.refines_graph
  obtain ⟨t', hrun, hact⟩ | ⟨hover, -⟩ | ⟨-, hfull, -⟩ := hrefines (.connect 0 1 .hadamard)
    ⟨rfl, rfl, fun _ => ⟨by decide, by decide⟩⟩
  · refine ⟨_, t', hfree, rfl, rfl, hsize.symm, rfl, hrun, ?_, hact⟩
    rw [← Except.ok.inj hrun]
    rfl
  · cases hover
  · cases hfull

end Tables

end ZX
