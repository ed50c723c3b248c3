import Mathlib
import ZX.Proofs.Tensor.Contraction

/-!
# The tensor of a diagram

Where the inputs and outputs list exactly the boundary vertices, contraction cannot fail, and the
entry for the input bits `x` and the output bits `y` is the sum that the diagram stands for. A phase
at a boundary vertex counts like that of a spider; without such phases the entries are the amplitudes
of the diagram.
-/
namespace ZX.Diagram

open Finset Function

variable {g g' : Diagram} {v : ℕ}

/-- The diagram has no loops and no parallel edges, and its inputs and outputs list its boundary
vertices, each of them once, and nothing else. A boundary vertex may have a phase and any number of
edges. -/
structure Framed (g : Diagram) : Prop extends g.Consistent where
  mem_ends : ∀ {v}, v ∈ g.inputs ++ g.outputs ↔ g.kind? v = some .boundary
  nodup_ends : (g.inputs ++ g.outputs).Nodup

theorem framed_iff : g.Framed ↔ g.Consistent ∧ (g.inputs ++ g.outputs).Nodup ∧
    (∀ v ∈ g.inputs ++ g.outputs, g.kind? v = some .boundary) ∧
    ∀ v < g.slots.size, g.kind? v = some .boundary → v ∈ g.inputs ++ g.outputs := by
  constructor
  · intro h
    exact ⟨h.toConsistent, h.nodup_ends, fun v hv => h.mem_ends.mp hv, fun v _ => h.mem_ends.mpr⟩
  · rintro ⟨hcons, hnodup, hends, hboundary⟩
    exact ⟨hcons, fun {v} => ⟨hends v, fun hv =>
      hboundary v (lt_size_of_contains (contains_of_kind? hv)) hv⟩, hnodup⟩

instance (g : Diagram) : Decidable g.Framed := decidable_of_iff _ framed_iff.symm

theorem Recoloured.framed (h : Recoloured g g') (hg : g.Framed) : g'.Framed where
  toConsistent := h.consistent
  mem_ends := by
    intro v
    rw [h.inputs_eq, h.outputs_eq, h.boundary_iff]
    exact hg.mem_ends
  nodup_ends := by
    rw [h.inputs_eq, h.outputs_eq]
    exact hg.nodup_ends

/-! ## The order of the vertices -/

/-- The vertices in the order of their axes, if none of them were summed away. -/
def axisOrder (g : Diagram) : List ℕ :=
  g.inputs ++ g.vertices.filter (fun v => g.kind? v ≠ some .boundary) ++ g.outputs

/-- How contraction goes when no boundary vertex is missing and no vertex fails. -/
theorem toTensor_eq_ok {c : Contraction ExactComplex} (hgreen : g.toGreen = .ok g')
    (hcount : g'.vertexCount ≤ g'.axisOrder.length)
    (hrun : g'.axisOrder.reverse.foldlM (Contraction.addVertex g') ⟨Tensor.unit, [], []⟩ = .ok c) :
    g.toTensor ExactComplex = .ok (c.tensor.scale (Amplitude.ofScalar g'.scalar)) := by
  have hspiders : (g'.vertices.filterM fun v => return (← g'.kind v) ≠ VertexKind.boundary) =
      .ok (g'.vertices.filter fun v => g'.kind? v ≠ some .boundary) := by
    refine filterM_eq_ok fun v hv => ?_
    obtain ⟨k, hk⟩ := exists_kind? (mem_vertices.mp hv)
    rw [kind_of_kind? hk, hk]
    simp [bind, Except.bind, pure, Except.pure]
  rw [axisOrder] at hcount hrun
  rw [toTensor, hgreen]
  show (g'.vertices.filterM _ >>= _ : Except Fault (Tensor ExactComplex)) = _
  rw [hspiders]
  show (if _ then _ else _ : Except Fault (Tensor ExactComplex)) = _
  rw [if_neg hcount.not_gt, hrun]
  rfl

namespace Framed

theorem mem_axisOrder (h : g.Framed) : v ∈ g.axisOrder ↔ g.contains v := by
  have hends : v ∈ g.inputs ∨ v ∈ g.outputs ↔ g.kind? v = some .boundary := by
    rw [← List.mem_append]
    exact h.mem_ends
  have hcontains : g.kind? v = some .boundary → g.contains v := contains_of_kind?
  simp only [axisOrder, List.mem_append, List.mem_filter, mem_vertices, decide_eq_true_eq]
  tauto

theorem nodup_axisOrder (h : g.Framed) : g.axisOrder.Nodup := by
  have hends := List.nodup_append.mp h.nodup_ends
  have hspider : ∀ {v}, v ∈ g.vertices.filter (fun v => g.kind? v ≠ some .boundary) →
      v ∉ g.inputs ++ g.outputs := by
    intro v hv hmem
    have hkind := (List.mem_filter.mp hv).2
    simp [h.mem_ends.mp hmem] at hkind
  rw [axisOrder, List.append_assoc, List.nodup_append, List.nodup_append]
  refine ⟨hends.1, ⟨g.nodup_vertices.filter _, hends.2.1, ?_⟩, ?_⟩
  · rintro u hu _ hu' rfl
    exact hspider hu (List.mem_append_right _ hu')
  · rintro u hu _ hu' rfl
    rcases List.mem_append.mp hu' with hu' | hu'
    · exact hspider hu' (List.mem_append_left _ hu)
    · exact hends.2.2 u hu u hu' rfl

theorem toFinset_axisOrder (h : g.Framed) : g.axisOrder.toFinset = g.support := by
  ext v
  rw [List.mem_toFinset, h.mem_axisOrder, mem_support]

theorem length_axisOrder (h : g.Framed) : g.axisOrder.length = g.vertexCount := by
  rw [h.vertexCount_eq, ← h.toFinset_axisOrder, List.toFinset_card_of_nodup h.nodup_axisOrder]

/-- In the end exactly the spiders are settled. -/
theorem settled_axisOrder (h : g.Framed) :
    g.Settled g.axisOrder v ↔ g.kind? v ≠ some .boundary :=
  and_iff_left fun _ hl => h.mem_axisOrder.mpr (h.toConsistent.contains_right hl)

theorem filter_axisOrder (h : g.Framed) :
    (g.axisOrder.filter fun v => ¬g.Settled g.axisOrder v) = g.inputs ++ g.outputs := by
  have hkeep : ∀ {L : List ℕ}, (∀ v ∈ L, v ∈ g.inputs ++ g.outputs) →
      (L.filter fun v => g.kind? v = some .boundary) = L := fun hL =>
    List.filter_eq_self.mpr fun v hv => decide_eq_true (h.mem_ends.mp (hL v hv))
  have hdrop : ((g.vertices.filter fun v => g.kind? v ≠ some .boundary).filter
      fun v => g.kind? v = some .boundary) = [] := by
    rw [List.filter_filter, List.filter_eq_nil_iff]
    intro v _
    simp
  simp only [h.settled_axisOrder, not_not]
  rw [axisOrder, List.filter_append, List.filter_append, hdrop, List.append_nil,
    hkeep fun v hv => List.mem_append_left _ hv, hkeep fun v hv => List.mem_append_right _ hv]

theorem filter_support (h : g.Framed) :
    (g.support.filter fun v => g.Settled g.axisOrder v) = g.spiders :=
  Finset.filter_congr fun _ _ => h.settled_axisOrder

/-! ## The sum -/

theorem exists_toTensor (h : g.Framed) :
    ∃ t, g.toTensor ExactComplex = .ok t ∧ t.entries.size = 2 ^ t.rank ∧
      t.Holds (g.inputs ++ g.outputs) g.spiders (g.mass g.support g.weight) := by
  obtain ⟨g', hok, hrec, hgreen⟩ := toGreen_recoloured h.toConsistent
  have h' := hrec.framed h
  obtain ⟨c, hrun, hc⟩ := Contraction.exists_sums h'.toConsistent hgreen h'.nodup_axisOrder
    fun v hv => h'.mem_axisOrder.mp hv
  have hholds := hc.holds.scale (Amplitude.ofScalar g'.scalar)
  rw [hc.axes_eq, List.nil_append, h'.filter_axisOrder, h'.toFinset_axisOrder, h'.filter_support,
    hrec.inputs_eq, hrec.outputs_eq, hrec.spiders_eq] at hholds
  refine ⟨_, toTensor_eq_ok hok h'.length_axisOrder.ge hrun, Array.size_ofFn, ?_⟩
  refine hholds.congr fun a => ?_
  have hweight : g'.weight = g.weight := funext fun v => by rw [weight, weight, hrec.phase?_eq]
  have hmass : g'.mass g.support g.weight a = g.mass g.support g.weight a :=
    mass_congr (by rw [hrec.scalar_eq]) (fun s _ t _ => hrec.wire?_eq s t) (fun _ _ => rfl)
      fun _ _ => rfl
  rw [← hmass, ← hweight, mass_weight, hrec.support_eq]
  rfl

/-- The ends read the bits that they are given. -/
theorem map_ends (h : g.Framed) (x y : ℕ → Bool) :
    (g.inputs ++ g.outputs).map (g.ends x y) =
      (List.range g.inputs.length).map x ++ (List.range g.outputs.length).map y := by
  obtain ⟨hin, hout, hapart⟩ := List.nodup_append.mp h.nodup_ends
  rw [List.map_append]
  congr 1
  · apply List.ext_getElem
    · simp
    · intro q hq _
      rw [List.length_map] at hq
      simp [ends, hin.idxOf_getElem q hq]
  · apply List.ext_getElem
    · simp
    · intro q hq _
      rw [List.length_map] at hq
      have hnot : g.outputs[q] ∉ g.inputs := fun hmem =>
        hapart _ hmem _ (List.getElem_mem hq) rfl
      simp [ends, hnot, hout.idxOf_getElem q hq]

end Framed

/-- Without phases at the boundary the weights are those of the spiders alone. -/
theorem weight_eq_turn (h : ∀ v, g.kind? v = some .boundary → g.phase? v = some Phase.zero) :
    g.weight = g.turn := by
  funext v
  by_cases hv : g.kind? v = some .boundary
  · rw [weight, h v hv, turn_of_boundary hv]
    simp
  · rw [weight, turn, if_neg hv]

/-- Contraction computes the sum. The weights are those of all vertices, so a phase at a boundary
vertex shows in the entries where its bit is 1. -/
theorem toTensor_eq_sum (hg : g.Framed) :
    ∃ t, g.toTensor ExactComplex = .ok t ∧ t.rank = g.inputs.length + g.outputs.length ∧
      t.entries.size = 2 ^ t.rank ∧
      ∀ x y : ℕ → Bool,
        (t.read ((List.range g.inputs.length).map x ++
          (List.range g.outputs.length).map y)).value = g.total g.weight (g.ends x y) ∧
        ((∀ v, g.kind? v = some .boundary → g.phase? v = some Phase.zero) →
          g.total g.weight (g.ends x y) = g.amplitude x y) := by
  obtain ⟨t, hok, hsize, ht⟩ := hg.exists_toTensor
  refine ⟨t, hok, ?_, hsize, fun x y => ⟨?_, fun hphase => ?_⟩⟩
  · rw [ht.rank_eq, List.length_append]
  · rw [← hg.map_ends, ht.value_eq]
    rfl
  · rw [amplitude, weight_eq_turn hphase]

/-- A red and a green spider between an input and an output with two edges, and a spider alone. -/
def twig : Diagram where
  slots := #[
    some ⟨.ofKind .boundary, [(3, .plain)]⟩,
    some ⟨.ofKind .boundary, [(3, .hadamard), (4, .plain)]⟩,
    none,
    some ⟨⟨.x, Phase.eighth, 0, 0⟩, [(0, .plain), (1, .hadamard), (4, .plain)]⟩,
    some ⟨⟨.z, Phase.quarter, 0, 0⟩, [(3, .plain), (1, .plain)]⟩,
    some ⟨⟨.z, Phase.eighth, 0, 0⟩, []⟩]
  holes := [2]
  inputs := [0]
  outputs := [1]
  vertexCount := 5
  edgeCount := 4
  scalar := Scalar.one

theorem toTensor_eq_sum_twig : twig.Framed ∧
    ∃ t, twig.toTensor ExactComplex = .ok t ∧ t.rank = 2 ∧ t.entries.size = 2 ^ t.rank ∧
      ∀ x y : ℕ → Bool, (t.read [x 0, y 0]).value = twig.amplitude x y := by
  have hframed : twig.Framed := by decide
  obtain ⟨t, hok, hrank, hsize, hread⟩ := toTensor_eq_sum hframed
  have hphase : ∀ v, twig.kind? v = some .boundary → twig.phase? v = some Phase.zero := by
    intro v hv
    have hmem : v = 0 ∨ v = 1 := by simpa [twig] using hframed.mem_ends.mpr hv
    rcases hmem with rfl | rfl <;> rfl
  exact ⟨hframed, t, hok, hrank, hsize, fun x y => (hread x y).1.trans ((hread x y).2 hphase)⟩

/-- An end with a half turn and no edge. -/
def post : Diagram where
  slots := #[some ⟨⟨.boundary, Phase.one, 0, 0⟩, []⟩]
  holes := []
  inputs := [0]
  outputs := []
  vertexCount := 1
  edgeCount := 0
  scalar := Scalar.one

/-- A spider that is listed as an input. -/
def knob : Diagram where
  slots := #[some ⟨.ofKind .z, []⟩]
  holes := []
  inputs := [0]
  outputs := []
  vertexCount := 1
  edgeCount := 0
  scalar := Scalar.one

/-- The phase of an end counts, and a spider among the ends has no axis. -/
theorem toTensor_ends_matter :
    (post.Framed ∧ ∃ t, post.toTensor ExactComplex = .ok t ∧ (t.read [true]).value = -1 ∧
      post.amplitude (fun _ => true) (fun _ => true) = 1) ∧
    knob.Consistent ∧ (∀ v, knob.kind? v ≠ some .boundary) ∧
      ∃ t, knob.toTensor ExactComplex = .ok t ∧
        t.rank ≠ knob.inputs.length + knob.outputs.length := by
  have hframed : post.Framed := by decide
  obtain ⟨t, hok, -, ht⟩ := hframed.exists_toTensor
  have hspiders : post.spiders = ∅ := by decide
  have hsupport : post.support = insert 0 ∅ := by decide
  have htotal : ∀ ω : ℕ → ℂ, post.total ω (fun _ => true) = ω 0 := by
    intro ω
    rw [total, hspiders, hsupport, sumOver_empty, hframed.mass_insert (notMem_empty 0)]
    simp [mass, pairs, post, Scalar.value_one]
  refine ⟨⟨hframed, t, hok, ?_, ?_⟩, by decide, ?_, _, rfl, by decide⟩
  · exact (ht.value_eq fun _ => true).trans ((htotal _).trans Phase.unit_one)
  · exact htotal post.turn
  · intro v hv
    have hzero : v < 1 := lt_size_of_contains (contains_of_kind? hv)
    interval_cases v
    exact absurd hv (by decide)

end ZX.Diagram
