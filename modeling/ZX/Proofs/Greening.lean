import Mathlib
import ZX.Proofs.Arena.Frame
import ZX.Proofs.Recolouring
import ZX.Proofs.Rule.Identity

/-!
# The green form of a diagram

The green form is written down in one step: every red spider becomes green and every edge is toggled
once for each red end, wherever it stands in the two lists that hold it. The loop over the vertices
ends in the green form, although an edge between two red spiders is toggled twice, at different times
and when one of its ends is green already.

The map of a diagram can also be read with a Hadamard matrix in front of each red end of an edge. Both
readings agree, and the green form has the map of the diagram in both.
-/
namespace ZX

open Finset Function

namespace VertexData

/-- The data with green in place of red. -/
def green (d : VertexData) : VertexData := { d with kind := if d.kind = .x then .z else d.kind }

theorem kind_green_ne (d : VertexData) : d.green.kind ≠ .x := by
  by_cases hd : d.kind = .x <;> simp [green, hd]

theorem green_green (d : VertexData) : d.green.green = d.green := by
  by_cases hd : d.kind = .x <;> simp [green, hd]

theorem eq_green {d d' : VertexData} (hkind : d'.kind = d.green.kind)
    (hrest : ({ d' with kind := .z } : VertexData) = { d with kind := .z }) : d' = d.green := by
  cases d
  cases d'
  simp_all [green]

end VertexData

namespace EdgeKind

/-- The entry of a wire with a Hadamard matrix in front of each red end: `a` and `b` are the bits of
the spiders, and the bits of the wire are summed over. -/
noncomputable def conjugated (r r' : Bool) (e : EdgeKind) (a b : Bool) : ℂ :=
  ∑ c : Bool, ∑ d : Bool, (plain.tint r).factor a c * e.factor c d * (plain.tint r').factor d b

theorem sum_factor_mul_factor (e f : EdgeKind) (a b : Bool) :
    ∑ c : Bool, e.factor a c * f.factor c b = (e.through f).factor a b := by
  rw [Fintype.sum_bool, add_comm, e.factor_comm a, e.factor_comm a, sum_factor]

/-- A Hadamard matrix on either end of a wire toggles it. -/
theorem conjugated_eq (r r' : Bool) (e : EdgeKind) (a b : Bool) :
    e.conjugated r r' a b = ((e.tint r).tint r').factor a b := by
  have hkind : (plain.tint r).through (e.through (plain.tint r')) = (e.tint r).tint r' := by
    cases r <;> cases r' <;> cases e <;> rfl
  rw [← hkind, ← sum_factor_mul_factor]
  refine sum_congr rfl fun c _ => ?_
  rw [← sum_factor_mul_factor, mul_sum]
  exact sum_congr rfl fun d _ => mul_assoc _ _ _

end EdgeKind

namespace Diagram

variable {g g' g'' : Diagram} {s t v : ℕ} {e : EdgeKind} {k : VertexKind} {d : VertexData}

/-- All red spiders are green and all edges are toggled once for each red end. -/
def green (g : Diagram) : Diagram :=
  { g with slots := g.slots.mapIdx fun v => Option.map fun x =>
      ⟨x.data.green, x.links.map fun l => (l.1, g.tinted v l.1 l.2)⟩ }

theorem vertex?_green (g : Diagram) (v : ℕ) : g.green.vertex? v = (g.vertex? v).map fun x =>
    ⟨x.data.green, x.links.map fun l => (l.1, g.tinted v l.1 l.2)⟩ := by
  rw [vertex?, vertex?, green, Array.getElem?_mapIdx]
  cases g.slots[v]? <;> rfl

theorem data?_green (g : Diagram) (v : ℕ) : g.green.data? v = (g.data? v).map .green := by
  rw [data?, data?, vertex?_green, Option.map_map, Option.map_map]
  rfl

theorem linksAt_green (g : Diagram) (v : ℕ) :
    g.green.linksAt v = (g.linksAt v).map fun l => (l.1, g.tinted v l.1 l.2) := by
  rw [linksAt, linksAt, vertex?_green]
  cases g.vertex? v <;> rfl

theorem kind?_green_ne (g : Diagram) (v : ℕ) : g.green.kind? v ≠ some .x := by
  rw [kind?, data?_green]
  cases g.data? v with
  | none => simp
  | some d => simpa using d.kind_green_ne

/-- Without red vertices an edge keeps its kind. -/
theorem tinted_of_no_red (h : ∀ v, g.kind? v ≠ some .x) (s t : ℕ) : g.tinted s t = id := by
  funext e
  rw [tinted, isRed, isRed, decide_eq_false (h s), decide_eq_false (h t)]
  rfl

theorem tinted_eq_iterate (g : Diagram) (s t : ℕ) (e : EdgeKind) :
    g.tinted s t e = EdgeKind.flip^[[s, t].countP g.isRed] e := by
  cases hs : g.isRed s <;> cases ht : g.isRed t <;> simp [tinted, hs, ht]

theorem vertex?_eq (g : Diagram) (v : ℕ) :
    g.vertex? v = (g.data? v).map fun d => ⟨d, g.linksAt v⟩ := by
  cases hd : g.data? v with
  | none => exact Option.map_eq_none_iff.mp hd
  | some d => exact vertex?_of_data? hd

/-- Diagrams are equal if they have the same data and links everywhere and the same records. -/
theorem ext_vertices (hdata : ∀ v, g'.data? v = g.data? v) (hlinks : ∀ v, g'.linksAt v = g.linksAt v)
    (hsize : g'.slots.size = g.slots.size) (hholes : g'.holes = g.holes)
    (hin : g'.inputs = g.inputs) (hout : g'.outputs = g.outputs)
    (hcount : g'.vertexCount = g.vertexCount) (hedges : g'.edgeCount = g.edgeCount)
    (hscalar : g'.scalar = g.scalar) : g' = g := by
  have hslots : g'.slots = g.slots := by
    refine Array.ext hsize fun v hv' hv => ?_
    have h : g'.vertex? v = g.vertex? v := by rw [vertex?_eq, vertex?_eq, hdata, hlinks]
    rwa [vertex?, vertex?, Array.getElem?_eq_getElem hv', Array.getElem?_eq_getElem hv] at h
  cases g
  cases g'
  simp_all

theorem size_green (g : Diagram) : g.green.slots.size = g.slots.size := by simp [green]

theorem green_green (g : Diagram) : g.green.green = g.green := by
  refine ext_vertices (fun v => ?_) (fun v => ?_) g.green.size_green rfl rfl rfl rfl rfl rfl
  · rw [data?_green, data?_green, Option.map_map]
    exact congrArg (Option.map · _) (funext VertexData.green_green)
  · rw [linksAt_green]
    simp only [tinted_of_no_red g.kind?_green_ne, id, List.map_id']

/-! ## What recolouring leaves alone -/

/-- The diagrams differ in the kinds of vertices and edges only. -/
structure Outlined (g g' : Diagram) : Prop where
  keys_eq : ∀ v, (g'.linksAt v).map Prod.fst = (g.linksAt v).map Prod.fst
  data?_eq : ∀ v, (g'.data? v).map ({ · with kind := .z }) = (g.data? v).map ({ · with kind := .z })
  size_eq : g'.slots.size = g.slots.size
  holes_eq : g'.holes = g.holes
  inputs_eq : g'.inputs = g.inputs
  outputs_eq : g'.outputs = g.outputs
  vertexCount_eq : g'.vertexCount = g.vertexCount
  edgeCount_eq : g'.edgeCount = g.edgeCount
  scalar_eq : g'.scalar = g.scalar

namespace Outlined

theorem refl (g : Diagram) : Outlined g g :=
  ⟨fun _ => rfl, fun _ => rfl, rfl, rfl, rfl, rfl, rfl, rfl, rfl⟩

theorem trans (h : Outlined g g') (h' : Outlined g' g'') : Outlined g g'' where
  keys_eq v := (h'.keys_eq v).trans (h.keys_eq v)
  data?_eq v := (h'.data?_eq v).trans (h.data?_eq v)
  size_eq := h'.size_eq.trans h.size_eq
  holes_eq := h'.holes_eq.trans h.holes_eq
  inputs_eq := h'.inputs_eq.trans h.inputs_eq
  outputs_eq := h'.outputs_eq.trans h.outputs_eq
  vertexCount_eq := h'.vertexCount_eq.trans h.vertexCount_eq
  edgeCount_eq := h'.edgeCount_eq.trans h.edgeCount_eq
  scalar_eq := h'.scalar_eq.trans h.scalar_eq

end Outlined

theorem Edited.outlined (h : Edited v ({ · with kind := k }) g g') : Outlined g g' := by
  obtain ⟨d, hd, rfl⟩ := h
  refine ⟨fun u => ?_, fun u => ?_, size_modifyVertex _, rfl, rfl, rfl, rfl, rfl, rfl⟩
  · rw [linksAt_setData]
  · rw [data?_setData _ (contains_of_data? hd)]
    split
    · rename_i hu
      rw [hu, hd]
      rfl
    · rfl

theorem Rekinded.outlined {s t : ℕ} (h : Rekinded s t g g') : Outlined g g' where
  keys_eq := h.keys_eq
  data?_eq v := by rw [h.data?_eq]
  size_eq := h.size_eq
  holes_eq := h.holes_eq
  inputs_eq := h.inputs_eq
  outputs_eq := h.outputs_eq
  vertexCount_eq := h.vertexCount_eq
  edgeCount_eq := h.edgeCount_eq
  scalar_eq := h.scalar_eq

theorem toGreen_outlined (g : Diagram) : Ends g.toGreen (Outlined g) fun _ => True := by
  refine Ends.foldlM_mem (fun v _ g' h => ?_) (.refl g)
  refine (Ends.result _).bind fun k _ => ?_
  split
  · refine (setKind_edited g' v .z).forget.bind fun g₁ h₁ => (Ends.result _).bind fun ws _ => ?_
    exact Ends.foldlM_mem (fun w _ g₂ h₂ => (toggleEdge_rekinded g₂ v w).forget.imp fun _ h₃ =>
      h₂.trans h₃.outlined) (h.trans h₁.outlined)
  · exact Ends.pure_iff.mpr h

/-! ## The loop ends in the green form -/

/-- When no vertex is red any more, the red ones have become green and the others are as they were. -/
theorem Recoloured.data?_eq_green (h : Recoloured g g') (hgreen : ∀ v, g'.kind? v ≠ some .x)
    (houtlined : Outlined g g') (v : ℕ) : g'.data? v = g.green.data? v := by
  have hrest := houtlined.data?_eq v
  have hkind := h.kind?_eq v
  have hnot := hgreen v
  rw [data?_green]
  cases hd : g.data? v with
  | none =>
      rw [hd, Option.map_none, Option.map_eq_none_iff] at hrest
      rw [hrest, Option.map_none]
  | some d =>
      rw [hd] at hrest
      obtain ⟨d', hd', heq⟩ := Option.map_eq_some_iff.mp hrest
      rw [hd', Option.map_some, Option.some_inj]
      refine VertexData.eq_green ?_ heq
      simp only [kind?, hd, hd', Option.map_some, Option.some_inj, ne_eq] at hkind hnot
      rw [VertexData.green]
      grind

/-- Links with the same far ends in the same order are equal if all the former are among the latter. -/
theorem eq_of_map_fst_eq {links links' : List Link} (hnodup : (links'.map Prod.fst).Nodup)
    (hkeys : links.map Prod.fst = links'.map Prod.fst) (hmem : ∀ l ∈ links, l ∈ links') :
    links = links' := by
  have hlength : links.length = links'.length := by simpa using congrArg List.length hkeys
  refine List.ext_getElem hlength fun i hi hi' => ?_
  have hkey : links[i].1 = links'[i].1 := by simpa [hi, hi'] using congrArg (·[i]?) hkeys
  exact List.inj_on_of_nodup_map hnodup (hmem _ (List.getElem_mem hi)) (List.getElem_mem hi') hkey

/-- The far ends stand in the same order, and the kind of each edge is known. -/
theorem Recoloured.linksAt_eq_green (h : Recoloured g g') (hg : g.Consistent)
    (hgreen : ∀ v, g'.kind? v ≠ some .x) (houtlined : Outlined g g') (v : ℕ) :
    g'.linksAt v = g.green.linksAt v := by
  have hkind : ∀ u, g'.edgeKind? v u = (g.edgeKind? v u).map (g.tinted v u) := by
    intro u
    have hwire := h.wire?_eq v u
    rwa [wire?, tinted_of_no_red hgreen, Option.map_id] at hwire
  rw [linksAt_green]
  refine (eq_of_map_fst_eq (h.consistent.nodup v) ?_ fun l hl => ?_).symm
  · rw [houtlined.keys_eq, List.map_map]
    rfl
  · obtain ⟨m, hm, rfl⟩ := List.mem_map.mp hl
    rw [← h.consistent.edgeKind?_iff, hkind, hg.edgeKind?_iff.mpr hm]
    rfl

theorem toGreen_eq (hg : g.Consistent) : g.toGreen = .ok g.green ∧ Recoloured g g.green := by
  obtain ⟨g', hg', hrec, hgreen⟩ := toGreen_recoloured hg
  have hout : Outlined g g' := (toGreen_outlined g).of_eq_ok hg'
  have heq : g' = g.green := ext_vertices (hrec.data?_eq_green hgreen hout)
    (hrec.linksAt_eq_green hg hgreen hout) (hout.size_eq.trans g.size_green.symm) hout.holes_eq
    hout.inputs_eq hout.outputs_eq hout.vertexCount_eq hout.edgeCount_eq hout.scalar_eq
  exact heq ▸ ⟨hg', hrec⟩

/-! ## Red spiders as conjugated green ones -/

/-- The summand for a valuation of the spiders, with the red ones read as green ones between
Hadamard matrices. -/
noncomputable def conjugatedMass (g : Diagram) (a : ℕ → Bool) : ℂ :=
  g.scalar.value * (∏ v ∈ g.support, spin (g.turn v) (a v)) *
    pairs g.support fun s t =>
      (g.edgeKind? s t).elim 1 fun e => e.conjugated (g.isRed s) (g.isRed t) (a s) (a t)

noncomputable def conjugatedTotal (g : Diagram) (β : ℕ → Bool) : ℂ :=
  sumOver g.spiders g.conjugatedMass β

theorem conjugatedTotal_eq (g : Diagram) (β : ℕ → Bool) :
    g.conjugatedTotal β = g.total g.turn β := by
  refine sumOver_congr fun a _ => ?_
  rw [conjugatedMass, mass]
  refine congrArg _ (pairs_congr fun s _ t _ _ => ?_)
  rw [wire?]
  cases g.edgeKind? s t with
  | none => rfl
  | some e => exact e.conjugated_eq _ _ _ _

/-- Recolouring returns the green form: the vertices with their phases and coordinates, the order of
all lists and the records are as they were, each edge is toggled once for each red end, and the map is
the same. The green form is its own green form. -/
theorem toGreen_exact (hg : g.Consistent) : g.toGreen = .ok g.green ∧ g.green.Consistent ∧
    (∀ v, g.green.kind? v ≠ some .x) ∧
    (∀ v, g.green.data? v =
      (g.data? v).map fun d => { d with kind := if d.kind = .x then .z else d.kind }) ∧
    (∀ v, g.green.linksAt v =
      (g.linksAt v).map fun l => (l.1, EdgeKind.flip^[[v, l.1].countP g.isRed] l.2)) ∧
    (∀ s t, g.green.edgeKind? s t =
      (g.edgeKind? s t).map EdgeKind.flip^[[s, t].countP g.isRed]) ∧
    g.green.inputs = g.inputs ∧ g.green.outputs = g.outputs ∧ g.green.scalar = g.scalar ∧
    g.green.slots.size = g.slots.size ∧ g.green.holes = g.holes ∧
    (∀ β, g.green.conjugatedTotal β = g.conjugatedTotal β) ∧
    (∀ x y, g.green.amplitude x y = g.amplitude x y) ∧ g.green.toGreen = .ok g.green := by
  obtain ⟨heq, hrec⟩ := toGreen_eq hg
  refine ⟨heq, hrec.consistent, g.kind?_green_ne, g.data?_green, fun v => ?_, fun s t => ?_, rfl, rfl,
    rfl, g.size_green, rfl, fun β => ?_, hrec.rewrites.amplitude_eq, ?_⟩
  · simp only [linksAt_green, tinted_eq_iterate]
  · have hwire := hrec.wire?_eq s t
    rw [wire?, tinted_of_no_red g.kind?_green_ne, Option.map_id] at hwire
    rw [id, wire?] at hwire
    rw [hwire, funext (g.tinted_eq_iterate s t)]
  · rw [conjugatedTotal_eq, conjugatedTotal_eq, hrec.rewrites.total_turn_eq]
  · rw [(toGreen_eq hrec.consistent).1, green_green]

/-- Two red spiders that are joined, each next to a green one or an end, with a free slot. -/
def palette : Diagram where
  slots := #[
    some ⟨⟨.boundary, Phase.zero, 0, 0⟩, [(2, .plain)]⟩,
    none,
    some ⟨⟨.x, Phase.quarter, 0, 1⟩, [(4, .plain), (0, .plain), (3, .hadamard)]⟩,
    some ⟨⟨.z, Phase.eighth, 1, 1⟩, [(2, .hadamard), (4, .plain)]⟩,
    some ⟨⟨.x, Phase.one, 0, 2⟩, [(3, .plain), (5, .hadamard), (2, .plain)]⟩,
    some ⟨⟨.boundary, Phase.zero, 0, 3⟩, [(4, .hadamard)]⟩]
  holes := [1]
  inputs := [0]
  outputs := [5]
  vertexCount := 5
  edgeCount := 5
  scalar := ⟨-1, Phase.quarter⟩

theorem toGreen_exact_palette : palette.Consistent ∧ palette.toGreen = .ok palette.green ∧
    palette.green.linksAt 2 = [(4, .plain), (0, .hadamard), (3, .plain)] ∧
    palette.green.linksAt 4 = [(3, .hadamard), (5, .plain), (2, .plain)] ∧
    (∀ x y, palette.green.amplitude x y = palette.amplitude x y) ∧
    palette.green.toGreen = .ok palette.green := by
  have hg : palette.Consistent := by decide +kernel
  obtain ⟨heq, -, -, -, hlinks, -, -, -, -, -, -, -, hmap, hagain⟩ := toGreen_exact hg
  refine ⟨hg, heq, ?_, ?_, hmap, hagain⟩
  · rw [hlinks]
    decide +kernel
  · rw [hlinks]
    decide +kernel

end Diagram

end ZX
