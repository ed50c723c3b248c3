import Mathlib
import ZX.Proofs.Angle
import ZX.Proofs.Arena.Edges
import ZX.Proofs.Assignment

/-!
# The linear map of a diagram

A diagram denotes the sum, over the bits of its spiders, of a product of one factor per spider and
one factor per edge, times its scalar. A red spider is a green one whose edges carry one more
Hadamard. The map is given by its amplitudes: `amplitude g x y` is the entry for the input bits `x`
and the output bits `y`.

The weights of the spiders are kept apart from the diagram, since some arguments replace the phases
of all spiders by other numbers.
-/
namespace ZX

open Finset Function

namespace EdgeKind

attribute [local instance] atLeastTwo_two in
/-- The entry of a wire for the bits at its ends. -/
noncomputable def factor : EdgeKind → Bool → Bool → ℂ
  | .plain, a, b => if a = b then 1 else 0
  | .hadamard, a, b => (if a && b then -1 else 1) / (√2 : ℝ)

theorem factor_comm (e : EdgeKind) (a b : Bool) : e.factor a b = e.factor b a := by
  cases e <;> cases a <;> cases b <;> rfl

/-- The kind of a wire one of whose ends may be red. -/
def tint (red : Bool) (e : EdgeKind) : EdgeKind := if red then e.flip else e

@[simp] theorem tint_false (e : EdgeKind) : e.tint false = e := rfl

@[simp] theorem tint_true (e : EdgeKind) : e.tint true = e.flip := rfl

theorem tint_comm (r r' : Bool) (e : EdgeKind) : (e.tint r).tint r' = (e.tint r').tint r := by
  cases r <;> cases r' <;> rfl

@[simp] theorem tint_tint (r : Bool) (e : EdgeKind) : (e.tint r).tint r = e := by
  cases r <;> simp

end EdgeKind

/-- The factor of a pair of vertices; without an edge it is 1. -/
noncomputable def linkFactor (o : Option EdgeKind) (a b : Bool) : ℂ := o.elim 1 (·.factor a b)

@[simp] theorem linkFactor_none (a b : Bool) : linkFactor none a b = 1 := rfl

@[simp] theorem linkFactor_some (e : EdgeKind) (a b : Bool) :
    linkFactor (some e) a b = e.factor a b := rfl

theorem linkFactor_comm (o : Option EdgeKind) (a b : Bool) :
    linkFactor o a b = linkFactor o b a := by
  cases o with
  | none => rfl
  | some e => exact e.factor_comm a b

namespace Diagram

variable {g g' : Diagram} {s t u v : ℕ} {e : EdgeKind}

def kind? (g : Diagram) (v : ℕ) : Option VertexKind := (g.data? v).map VertexData.kind

def phase? (g : Diagram) (v : ℕ) : Option Phase := (g.data? v).map VertexData.phase

/-- The line on which a vertex lies. -/
def line? (g : Diagram) (v : ℕ) : Option Float := (g.data? v).map VertexData.qubit

def isRed (g : Diagram) (v : ℕ) : Bool := g.kind? v = some .x

/-- The kind that an edge between two vertices would have if both were green. -/
def tinted (g : Diagram) (s t : ℕ) (e : EdgeKind) : EdgeKind := (e.tint (g.isRed s)).tint (g.isRed t)

def wire? (g : Diagram) (s t : ℕ) : Option EdgeKind := (g.edgeKind? s t).map (g.tinted s t)

def spiders (g : Diagram) : Finset ℕ := g.support.filter fun v => g.kind? v ≠ some .boundary

/-- The weight of a vertex: `e^(i pi p)` for a spider with phase `p`, and 1 for a boundary. -/
noncomputable def turn (g : Diagram) (v : ℕ) : ℂ :=
  if g.kind? v = some .boundary then 1 else (g.phase? v).elim 1 Phase.unit

/-- The summand for a valuation, restricted to the vertices in `V` and with weights `ω`. -/
noncomputable def mass (g : Diagram) (V : Finset ℕ) (ω : ℕ → ℂ) (a : ℕ → Bool) : ℂ :=
  g.scalar.value * (∏ v ∈ V, spin (ω v) (a v)) *
    pairs V fun s t => linkFactor (g.wire? s t) (a s) (a t)

/-- The bits of the ends: the inputs read `x` and the outputs read `y`. -/
def ends (g : Diagram) (x y : ℕ → Bool) (v : ℕ) : Bool :=
  if v ∈ g.inputs then x (g.inputs.idxOf v) else y (g.outputs.idxOf v)

/-- The sum of all summands with the given weights and the given bits at the ends. -/
noncomputable def total (g : Diagram) (ω : ℕ → ℂ) (β : ℕ → Bool) : ℂ :=
  sumOver g.spiders (g.mass g.support ω) β

/-- The entry of the linear map from input bits `x` to output bits `y`. -/
noncomputable def amplitude (g : Diagram) (x y : ℕ → Bool) : ℂ := g.total g.turn (g.ends x y)

/-- The diagram has no loops and no parallel edges, and its boundary vertices have no phase, have
one edge each and are listed exactly once among the inputs and outputs, which list nothing else. -/
structure WellFormed (g : Diagram) : Prop extends g.Consistent where
  mem_ends : ∀ {v}, v ∈ g.inputs ++ g.outputs ↔ g.kind? v = some .boundary
  nodup_ends : (g.inputs ++ g.outputs).Nodup
  boundary_phase : ∀ {v}, g.kind? v = some .boundary → g.phase? v = some Phase.zero
  boundary_degree : ∀ {v}, g.kind? v = some .boundary → (g.linksAt v).length = 1

theorem wellFormed_iff : g.WellFormed ↔ g.Consistent ∧ (g.inputs ++ g.outputs).Nodup ∧
    (∀ v ∈ g.inputs ++ g.outputs, g.kind? v = some .boundary) ∧
    ∀ v < g.slots.size, g.kind? v = some .boundary →
      v ∈ g.inputs ++ g.outputs ∧ g.phase? v = some Phase.zero ∧ (g.linksAt v).length = 1 := by
  constructor
  · intro h
    exact ⟨h.toConsistent, h.nodup_ends, fun v hv => h.mem_ends.mp hv,
      fun v _ hv => ⟨h.mem_ends.mpr hv, h.boundary_phase hv, h.boundary_degree hv⟩⟩
  · rintro ⟨hcons, hnodup, hends, hboundary⟩
    have hsize : ∀ {v}, g.kind? v = some .boundary → v < g.slots.size := by
      intro v hv
      obtain ⟨d, hd, -⟩ := Option.map_eq_some_iff.mp hv
      exact lt_size_of_contains (contains_of_data? hd)
    exact ⟨hcons, fun {v} => ⟨hends v, fun hv => (hboundary v (hsize hv) hv).1⟩, hnodup,
      fun hv => (hboundary _ (hsize hv) hv).2.1, fun hv => (hboundary _ (hsize hv) hv).2.2⟩

instance (g : Diagram) : Decidable g.WellFormed := decidable_of_iff _ wellFormed_iff.symm

theorem WellFormed.kind?_input (h : g.WellFormed) (hv : v ∈ g.inputs) :
    g.kind? v = some .boundary := h.mem_ends.mp (List.mem_append_left _ hv)

theorem WellFormed.kind?_output (h : g.WellFormed) (hv : v ∈ g.outputs) :
    g.kind? v = some .boundary := h.mem_ends.mp (List.mem_append_right _ hv)

/-! ## Reading kinds and phases -/

theorem kind?_eq_some {k : VertexKind} :
    g.kind? v = some k ↔ ∃ d, g.data? v = some d ∧ d.kind = k := Option.map_eq_some_iff

theorem contains_of_kind? {k : VertexKind} (h : g.kind? v = some k) : g.contains v := by
  obtain ⟨d, hd, -⟩ := kind?_eq_some.mp h
  exact contains_of_data? hd

theorem kind_of_kind? {k : VertexKind} (h : g.kind? v = some k) : g.kind v = .ok k := by
  obtain ⟨d, hd, rfl⟩ := kind?_eq_some.mp h
  exact kind_of_data? hd

theorem phase?_eq_some {p : Phase} :
    g.phase? v = some p ↔ ∃ d, g.data? v = some d ∧ d.phase = p := Option.map_eq_some_iff

theorem phase_of_phase? {p : Phase} (h : g.phase? v = some p) : g.phase v = .ok p := by
  obtain ⟨d, hd, rfl⟩ := phase?_eq_some.mp h
  exact phase_of_data? hd

theorem exists_kind? (h : g.contains v) : ∃ k, g.kind? v = some k := by
  obtain ⟨d, hd⟩ := contains_iff_data?.mp h
  exact ⟨d.kind, kind?_eq_some.mpr ⟨d, hd, rfl⟩⟩

theorem exists_phase? (h : g.contains v) : ∃ p, g.phase? v = some p := by
  obtain ⟨d, hd⟩ := contains_iff_data?.mp h
  exact ⟨d.phase, phase?_eq_some.mpr ⟨d, hd, rfl⟩⟩

theorem mem_spiders : v ∈ g.spiders ↔ g.contains v ∧ g.kind? v ≠ some .boundary := by
  rw [spiders, mem_filter, mem_support]

theorem spiders_subset (g : Diagram) : g.spiders ⊆ g.support := filter_subset _ _

theorem turn_of_phase? {p : Phase} (hk : g.kind? v ≠ some .boundary) (hp : g.phase? v = some p) :
    g.turn v = p.unit := by
  rw [turn, if_neg hk, hp]
  rfl

theorem turn_of_boundary (hk : g.kind? v = some .boundary) : g.turn v = 1 := if_pos hk

theorem tinted_comm (g : Diagram) (s t : ℕ) : g.tinted s t = g.tinted t s :=
  funext fun e => EdgeKind.tint_comm _ _ e

theorem Consistent.wire?_comm (h : g.Consistent) (s t : ℕ) : g.wire? s t = g.wire? t s := by
  rw [wire?, wire?, h.edgeKind?_comm s t, tinted_comm]

/-! ## The summand -/

variable {V : Finset ℕ} {ω ω' : ℕ → ℂ} {a b : ℕ → Bool}

/-- The summand depends on the scalar, on the edges and weights in `V` and on the bits in `V`. -/
theorem mass_congr (hs : g'.scalar.value = g.scalar.value)
    (hwire : ∀ s ∈ V, ∀ t ∈ V, g'.wire? s t = g.wire? s t) (hω : ∀ v ∈ V, ω' v = ω v)
    (ha : ∀ v ∈ V, b v = a v) : g'.mass V ω' b = g.mass V ω a := by
  have hspin : ∏ v ∈ V, spin (ω' v) (b v) = ∏ v ∈ V, spin (ω v) (a v) :=
    prod_congr rfl fun v hv => by rw [hω v hv, ha v hv]
  have hpairs : pairs V (fun s t => linkFactor (g'.wire? s t) (b s) (b t)) =
      pairs V fun s t => linkFactor (g.wire? s t) (a s) (a t) :=
    pairs_congr fun s hs t ht _ => by rw [hwire s hs t ht, ha s hs, ha t ht]
  rw [mass, mass, hs, hspin, hpairs]

theorem Consistent.linkFactor_wire?_comm (h : g.Consistent) (a : ℕ → Bool) (s t : ℕ) :
    linkFactor (g.wire? s t) (a s) (a t) = linkFactor (g.wire? t s) (a t) (a s) := by
  rw [h.wire?_comm s t, linkFactor_comm]

theorem Consistent.mass_insert (h : g.Consistent) (hv : v ∉ V) :
    g.mass (insert v V) ω a = spin (ω v) (a v) *
      (∏ u ∈ V, linkFactor (g.wire? v u) (a v) (a u)) * g.mass V ω a := by
  rw [mass, mass, prod_insert hv, pairs_insert (h.linkFactor_wire?_comm a) hv]
  ring

end Diagram

end ZX
