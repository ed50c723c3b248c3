import Mathlib
import ZX.Proofs.Rule.Account

/-!
# The quotient of a graph by its plain edges

Plain edges between green spiders tie these together. The quotient has one spider for each class of
spiders that are tied together: the least of its members, which carries the phases of all of them
and half a turn for each Hadamard edge inside the class. Between two classes only the parity of the
number of Hadamard edges counts.

`Quotient` says this of two graphs, with all that they hold. A graph has one quotient.
-/
namespace ZX.LabelledGraph

open Finset EdgeKind Relation

variable {G G' : LabelledGraph} {V K L : Finset ℕ} {a b t u v w v₀ v₁ : ℕ} {e : EdgeKind}

/-! ## Ties -/

/-- Green spiders that a plain edge joins. -/
structure Tied (G : LabelledGraph) (a b : ℕ) : Prop where
  edge_eq : G.edge s(a, b) = some .plain
  left : G.kind? a = some .z
  right : G.kind? b = some .z

theorem tied_def : G.Tied a b ↔
    G.edge s(a, b) = some .plain ∧ G.kind? a = some .z ∧ G.kind? b = some .z :=
  ⟨fun h => ⟨h.edge_eq, h.left, h.right⟩, fun h => ⟨h.1, h.2.1, h.2.2⟩⟩

theorem Tied.symm (h : G.Tied a b) : G.Tied b a := ⟨Sym2.eq_swap ▸ h.edge_eq, h.right, h.left⟩

instance : Std.Symm G.Tied := ⟨fun _ _ => Tied.symm⟩

/-- A set of vertices that no tie leaves. -/
def Closed (G : LabelledGraph) (K : Finset ℕ) : Prop := ∀ a b, G.Tied a b → a ∈ K → b ∈ K

theorem Closed.mem_iff (h : G.Closed K) (htied : G.Tied a b) : a ∈ K ↔ b ∈ K :=
  ⟨h a b htied, h b a htied.symm⟩

open Classical in
/-- The members of `V` that ties connect with `v`. -/
noncomputable def cluster (G : LabelledGraph) (V : Finset ℕ) (v : ℕ) : Finset ℕ :=
  {u ∈ V | ReflTransGen G.Tied v u}

theorem mem_cluster : u ∈ G.cluster V v ↔ u ∈ V ∧ ReflTransGen G.Tied v u := by simp [cluster]

theorem cluster_subset (G : LabelledGraph) (V : Finset ℕ) (v : ℕ) : G.cluster V v ⊆ V :=
  fun _ hu => (mem_cluster.mp hu).1

theorem mem_cluster_self (hv : v ∈ V) : v ∈ G.cluster V v := mem_cluster.mpr ⟨hv, .refl⟩

theorem data_of_mem_cluster (hv : G.data v ≠ none) (hu : u ∈ G.cluster V v) :
    G.data u ≠ none := by
  cases (mem_cluster.mp hu).2 with
  | refl => exact hv
  | tail _ htied =>
      obtain ⟨d, hd, -⟩ := Option.map_eq_some_iff.mp htied.right
      simp [hd]

theorem cluster_closed (hV : ∀ a b, G.Tied a b → b ∈ V) (v : ℕ) : G.Closed (G.cluster V v) :=
  fun a b hab ha => mem_cluster.mpr ⟨hV a b hab, (mem_cluster.mp ha).2.tail hab⟩

theorem Closed.cluster_subset (h : G.Closed K) (hv : v ∈ K) : G.cluster V v ⊆ K := by
  intro u hu
  have hreach := (mem_cluster.mp hu).2
  clear hu
  induction hreach with
  | refl => exact hv
  | tail _ hab ih => exact h _ _ hab ih

/-- The vertex is the least of its class. -/
def Leads (G : LabelledGraph) (V : Finset ℕ) (v : ℕ) : Prop := ∀ u ∈ G.cluster V v, v ≤ u

/-! ## Charges and parities -/

/-- The number of edges of one kind between two sets of vertices. -/
def edgesBetween (G : LabelledGraph) (e : EdgeKind) (K L : Finset ℕ) : ℕ :=
  #{x ∈ K ×ˢ L | G.edge s(x.1, x.2) = some e}

theorem edgesBetween_eq_sum (G : LabelledGraph) (K L : Finset ℕ) :
    G.edgesBetween .hadamard K L = ∑ a ∈ K, ∑ b ∈ L, tally (G.edge s(a, b)) := by
  rw [edgesBetween, card_filter, sum_product]
  rfl

theorem edgesBetween_comm (G : LabelledGraph) (K L : Finset ℕ) :
    G.edgesBetween .hadamard K L = G.edgesBetween .hadamard L K := by
  rw [edgesBetween_eq_sum, edgesBetween_eq_sum, sum_comm]
  exact sum_congr rfl fun a _ => sum_congr rfl fun b _ => by rw [Sym2.eq_swap]

/-- The angles of a set of spiders, and half a turn for each Hadamard edge among them. -/
def charge (G : LabelledGraph) (K : Finset ℕ) : AddCircle (2 : ℚ) :=
  ∑ u ∈ K, G.angle u + G.edgesIn .hadamard K • halfTurn

/-! ## The quotient -/

/-- `G'` is the quotient of `G`, a graph with green spiders and boundaries on the vertices `V`. -/
structure Quotient (V : Finset ℕ) (G G' : LabelledGraph) : Prop where
  data_spider : ∀ v d, G.data v = some d → d.kind = .z → G.Leads V v →
    ∃ p, G'.data v = some { d with phase := p } ∧
      p.angle = ∑ u ∈ G.cluster V v, G.angle u + G.edgesIn .hadamard (G.cluster V v) • halfTurn
  data_gone : ∀ v, G.kind? v = some .z → ¬G.Leads V v → G'.data v = none
  data_boundary : ∀ b, G.kind? b ≠ some .z → G'.data b = G.data b
  edge_spiders : ∀ v w, G'.kind? v = some .z → G'.kind? w = some .z → v ≠ w → G'.edge s(v, w) =
    if Odd (G.edgesBetween .hadamard (G.cluster V v) (G.cluster V w)) then some .hadamard else none
  edge_boundary : ∀ b w, G.kind? b = some .boundary → G'.kind? w = some .z → ∀ e,
    G'.edge s(b, w) = some e ↔ ∃ t ∈ G.cluster V w, G.edge s(b, t) = some e
  edge_wire : ∀ b c, G.kind? b = some .boundary → G.kind? c = some .boundary →
    G'.edge s(b, c) = G.edge s(b, c)
  edge_self : ∀ v, G'.edge s(v, v) = none
  edge_gone : ∀ v u, G'.data v = none → G'.edge s(v, u) = none
  inputs_eq : G'.inputs = G.inputs
  outputs_eq : G'.outputs = G.outputs
  scalarPhase_eq : G'.scalar.phase = G.scalar.phase
  sqrt2Pow_eq : G.scalar.sqrt2Pow - G'.scalar.sqrt2Pow =
    G.edgesIn .hadamard V - G'.edgesIn .hadamard V

/-! ## Uniqueness -/

namespace Quotient

theorem kind?_eq (h : Quotient V G G') (hv : G'.data v ≠ none) : G'.kind? v = G.kind? v := by
  by_cases hz : G.kind? v = some .z
  · obtain ⟨d, hd, hk⟩ := Option.map_eq_some_iff.mp hz
    have hleads : G.Leads V v := by
      by_contra hleads
      exact hv (h.data_gone v hz hleads)
    obtain ⟨p, hp, -⟩ := h.data_spider v d hd hk hleads
    rw [kind?, kind?, hp, hd]
    rfl
  · rw [kind?, h.data_boundary v hz, kind?]

theorem spider_or_boundary (h : Quotient V G G') (hgreen : ∀ v, G.kind? v ≠ some .x)
    (hv : G'.data v ≠ none) : G'.kind? v = some .z ∨ G.kind? v = some .boundary := by
  obtain ⟨d, hd⟩ := Option.ne_none_iff_exists'.mp hv
  have hkind : G'.kind? v = some d.kind := congrArg (Option.map VertexData.kind) hd
  have hkind' := (h.kind?_eq hv).symm.trans hkind
  cases hk : d.kind with
  | boundary => exact .inr (hk ▸ hkind')
  | z => exact .inl (hk ▸ hkind)
  | x => exact absurd (hk ▸ hkind') (hgreen v)

variable {G₁ G₂ : LabelledGraph} (h₁ : Quotient V G G₁) (h₂ : Quotient V G G₂)
include h₁ h₂

theorem data_unique : G₁.data = G₂.data := by
  funext v
  by_cases hz : G.kind? v = some .z
  · obtain ⟨d, hd, hk⟩ := Option.map_eq_some_iff.mp hz
    by_cases hleads : G.Leads V v
    · obtain ⟨p₁, hp₁, hangle₁⟩ := h₁.data_spider v d hd hk hleads
      obtain ⟨p₂, hp₂, hangle₂⟩ := h₂.data_spider v d hd hk hleads
      rw [hp₁, hp₂, Phase.angle_injective (hangle₁.trans hangle₂.symm)]
    · rw [h₁.data_gone v hz hleads, h₂.data_gone v hz hleads]
  · rw [h₁.data_boundary v hz, h₂.data_boundary v hz]

theorem edge_unique (hgreen : ∀ v, G.kind? v ≠ some .x) : G₁.edge = G₂.edge := by
  have hdata := h₁.data_unique h₂
  have hkinds : ∀ v, G₂.kind? v = G₁.kind? v := fun v => by rw [kind?, kind?, hdata]
  -- A boundary and any other vertex.
  have hboundary : ∀ {b w}, G.kind? b = some .boundary → G₁.data w ≠ none →
      G₁.edge s(b, w) = G₂.edge s(b, w) := by
    intro b w hb hw
    rcases h₁.spider_or_boundary hgreen hw with hz | hw'
    · ext e
      rw [h₁.edge_boundary b w hb hz, h₂.edge_boundary b w hb ((hkinds w).trans hz)]
    · rw [h₁.edge_wire b w hb hw', h₂.edge_wire b w hb hw']
  funext pair
  induction pair using Sym2.ind with
  | _ a b =>
      by_cases hab : a = b
      · rw [hab, h₁.edge_self, h₂.edge_self]
      · by_cases ha : G₁.data a = none
        · rw [h₁.edge_gone a b ha, h₂.edge_gone a b (hdata ▸ ha)]
        · by_cases hb : G₁.data b = none
          · rw [Sym2.eq_swap, h₁.edge_gone b a hb, h₂.edge_gone b a (hdata ▸ hb)]
          · rcases h₁.spider_or_boundary hgreen ha with haz | ha'
            · rcases h₁.spider_or_boundary hgreen hb with hbz | hb'
              · rw [h₁.edge_spiders a b haz hbz hab, h₂.edge_spiders a b ((hkinds a).trans haz)
                  ((hkinds b).trans hbz) hab]
              · rw [Sym2.eq_swap, hboundary hb' ha]
            · exact hboundary ha' hb

/-- A graph has one quotient. -/
theorem unique (hgreen : ∀ v, G.kind? v ≠ some .x) : G₁ = G₂ := by
  have hdata := h₁.data_unique h₂
  have hedge := h₁.edge_unique h₂ hgreen
  have hcount : G₁.edgesIn .hadamard V = G₂.edgesIn .hadamard V :=
    edgesIn_congr fun _ _ _ _ => by rw [hedge]
  have hpow : G₁.scalar.sqrt2Pow = G₂.scalar.sqrt2Pow := by
    have hpow₁ := h₁.sqrt2Pow_eq
    have hpow₂ := h₂.sqrt2Pow_eq
    rw [hcount] at hpow₁
    linarith
  have hphase : G₁.scalar.phase = G₂.scalar.phase := h₁.scalarPhase_eq.trans h₂.scalarPhase_eq.symm
  have hin : G₁.inputs = G₂.inputs := h₁.inputs_eq.trans h₂.inputs_eq.symm
  have hout : G₁.outputs = G₂.outputs := h₁.outputs_eq.trans h₂.outputs_eq.symm
  obtain ⟨_, _, _, _, ⟨_, _⟩⟩ := G₁
  obtain ⟨_, _, _, _, ⟨_, _⟩⟩ := G₂
  congr

end Quotient

end ZX.LabelledGraph
