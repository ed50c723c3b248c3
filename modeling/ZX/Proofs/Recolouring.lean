import Mathlib
import ZX.Proofs.Rewriting

/-!
# Recolouring

Turning a red spider green toggles its edges, which leaves every wire as it was when both its ends
are read as green. So recolouring a whole diagram changes neither the map nor the boundary, and it
cannot fail.
-/
namespace ZX.Diagram

open Finset Function

variable {g g' g'' : Diagram} {s t v : ℕ}

/-- Some red spiders of `g` have become green. -/
structure Recoloured (g g' : Diagram) : Prop where
  consistent : g'.Consistent
  kind?_eq : ∀ v, g'.kind? v = g.kind? v ∨ g.kind? v = some .x ∧ g'.kind? v = some .z
  phase?_eq : ∀ v, g'.phase? v = g.phase? v
  wire?_eq : ∀ s t, g'.wire? s t = g.wire? s t
  inputs_eq : g'.inputs = g.inputs
  outputs_eq : g'.outputs = g.outputs
  scalar_eq : g'.scalar = g.scalar
  vertexCount_eq : g'.vertexCount = g.vertexCount

namespace Recoloured

theorem refl (h : g.Consistent) : Recoloured g g :=
  ⟨h, fun _ => .inl rfl, fun _ => rfl, fun _ _ => rfl, rfl, rfl, rfl, rfl⟩

theorem trans (h : Recoloured g g') (h' : Recoloured g' g'') : Recoloured g g'' where
  consistent := h'.consistent
  kind?_eq v := by
    have h₁ := h.kind?_eq v
    have h₂ := h'.kind?_eq v
    grind
  phase?_eq v := (h'.phase?_eq v).trans (h.phase?_eq v)
  wire?_eq s t := (h'.wire?_eq s t).trans (h.wire?_eq s t)
  inputs_eq := h'.inputs_eq.trans h.inputs_eq
  outputs_eq := h'.outputs_eq.trans h.outputs_eq
  scalar_eq := h'.scalar_eq.trans h.scalar_eq
  vertexCount_eq := h'.vertexCount_eq.trans h.vertexCount_eq

theorem boundary_iff (h : Recoloured g g') (v : ℕ) :
    g'.kind? v = some .boundary ↔ g.kind? v = some .boundary := by
  have := h.kind?_eq v
  grind

theorem contains_eq (h : Recoloured g g') (v : ℕ) : g'.contains v = g.contains v := by
  rw [contains_eq_kind?_isSome, contains_eq_kind?_isSome]
  rcases h.kind?_eq v with hv | ⟨hx, hz⟩
  · rw [hv]
  · rw [hx, hz]
    rfl

theorem support_eq (h : Recoloured g g') : g'.support = g.support := by
  ext v
  rw [mem_support, mem_support, h.contains_eq]

theorem spiders_eq (h : Recoloured g g') : g'.spiders = g.spiders := by
  ext v
  rw [mem_spiders, mem_spiders, h.contains_eq, Ne, h.boundary_iff]

theorem turn_eq (h : Recoloured g g') (v : ℕ) : g'.turn v = g.turn v := by
  rw [turn, turn, h.phase?_eq]
  simp only [h.boundary_iff]

theorem rewrites (h : Recoloured g g') : Rewrites g g' where
  inputs_eq := h.inputs_eq
  outputs_eq := h.outputs_eq
  support_subset := h.support_eq.subset
  spiders_subset := h.spiders_eq.subset
  red v hv := by
    rcases h.kind?_eq v with hsame | ⟨hx, -⟩
    · rwa [hsame] at hv
    · exact hx
  total_eq := by
    refine ⟨fun _ => 1, fun _ => one_ne_zero, fun v _ => (h.turn_eq v).trans (one_mul _).symm, ?_⟩
    intro ω _ β
    simp only [one_mul]
    rw [total, total, h.spiders_eq, h.support_eq]
    exact sumOver_congr fun a _ => (mass_congr (by rw [h.scalar_eq])
      (fun s _ t _ => h.wire?_eq s t) (fun _ _ => rfl) fun _ _ => rfl).symm

/-- The same pairs are adjacent. -/
theorem edgeKind?_isSome (h : Recoloured g g') (s t : ℕ) :
    (g'.edgeKind? s t).isSome = (g.edgeKind? s t).isSome := by
  have := congrArg Option.isSome (h.wire?_eq s t)
  rwa [wire?, wire?, Option.isSome_map, Option.isSome_map] at this

theorem hangsOn {b : ℕ} {e : EdgeKind} (h : Recoloured g g') (hb : g.HangsOn b t e) :
    ∃ f, g'.HangsOn b t f := by
  have hsome : (g'.edgeKind? b t).isSome := by
    rw [h.edgeKind?_isSome, hb, if_pos rfl]
    rfl
  obtain ⟨f, hf⟩ := Option.isSome_iff_exists.mp hsome
  refine ⟨f, fun u => ?_⟩
  by_cases hu : u = t
  · rw [hu, hf, if_pos rfl]
  · rw [if_neg hu, ← Option.not_isSome_iff_eq_none, h.edgeKind?_isSome, hb, if_neg hu]
    simp

theorem wellFormed (h : Recoloured g g') (hg : g.WellFormed) : g'.WellFormed :=
  hg.transport h.consistent h.inputs_eq h.outputs_eq h.boundary_iff (fun v _ => h.phase?_eq v)
    fun _ t _ _ hb => ⟨t, h.hangsOn hb⟩

end Recoloured

/-- The edges from `v` to the vertices that are done have been toggled. -/
structure Toggled (g : Diagram) (v : ℕ) (done : List ℕ) (g' : Diagram) : Prop where
  consistent : g'.Consistent
  data?_eq : ∀ u, g'.data? u = g.data? u
  edgeKind?_eq : ∀ s t, g'.edgeKind? s t =
    if s = v ∧ t ∈ done ∨ t = v ∧ s ∈ done then (g.edgeKind? s t).map EdgeKind.flip
    else g.edgeKind? s t
  inputs_eq : g'.inputs = g.inputs
  outputs_eq : g'.outputs = g.outputs
  scalar_eq : g'.scalar = g.scalar
  vertexCount_eq : g'.vertexCount = g.vertexCount

theorem toggleAll_toggled (h : g.Consistent) {ws : List ℕ} (hnodup : ws.Nodup)
    (hws : ∀ w ∈ ws, ∃ e, g.edgeKind? v w = some e) :
    Ends (ws.foldlM (fun g w => g.toggleEdge v w) g) (Toggled g v ws) fun _ => False := by
  refine Ends.foldlM_done (fun done w rest g₁ hsplit h₁ => ?_)
    ⟨h, fun _ => rfl, fun s t => by simp, rfl, rfl, rfl, rfl⟩
  obtain ⟨e, he⟩ := hws w (by simp [hsplit])
  have hwv := h.ne_of_edgeKind? he
  have hfresh : w ∉ done := by
    rw [hsplit, List.nodup_middle, List.nodup_cons] at hnodup
    exact fun hc => hnodup.1 (List.mem_append_left _ hc)
  have he₁ : g₁.edgeKind? v w = some e := by
    rw [h₁.edgeKind?_eq, if_neg, he]
    rintro (⟨-, hc⟩ | ⟨hc, -⟩)
    · exact hfresh hc
    · exact hwv hc.symm
  obtain ⟨g₂, hg₂, hset⟩ := toggleEdge_edgeSet h₁.consistent he₁
  refine Ends.of_exists_ok ⟨g₂, hg₂, hset.consistent, fun u => ?_, fun s t => ?_, ?_, ?_, ?_, ?_⟩
  · rw [hset.data?_eq, h₁.data?_eq]
  · rw [hset.edgeKind?_eq, h₁.edgeKind?_eq]
    simp only [List.mem_append, List.mem_singleton]
    by_cases hpair : IsPair v w s t
    · rw [if_pos hpair]
      rcases hpair with ⟨rfl, rfl⟩ | ⟨rfl, rfl⟩
      · simp [he]
      · rw [h.edgeKind?_comm, he]
        simp
    · rw [if_neg hpair]
      have hiff : (s = v ∧ (t ∈ done ∨ t = w) ∨ t = v ∧ (s ∈ done ∨ s = w)) ↔
          (s = v ∧ t ∈ done ∨ t = v ∧ s ∈ done) := by
        unfold IsPair at hpair
        tauto
      simp only [hiff]
  · rw [hset.inputs_eq, h₁.inputs_eq]
  · rw [hset.outputs_eq, h₁.outputs_eq]
  · rw [hset.scalar_eq, h₁.scalar_eq]
  · rw [hset.vertexCount_eq, h₁.vertexCount_eq]

/-- One red spider turns green and all its edges are toggled. -/
theorem Toggled.recoloured {d : VertexData} (h : g.Consistent) (hd : g.data? v = some d)
    (hx : d.kind = .x)
    (ht : Toggled (g.setData v { d with kind := .z }) v ((g.linksAt v).map Prod.fst) g') :
    Recoloured g g' ∧ ∀ u, g'.kind? u = if u = v then some .z else g.kind? u := by
  have hdata : ∀ u, g'.data? u = if u = v then some { d with kind := .z } else g.data? u := by
    intro u
    rw [ht.data?_eq, data?_setData _ (contains_of_data? hd)]
  have hkind : ∀ u, g'.kind? u = if u = v then some .z else g.kind? u := by
    intro u
    rw [kind?, hdata]
    split <;> rfl
  have hgx : g.kind? v = some .x := kind?_eq_some.mpr ⟨d, hd, hx⟩
  have hred : ∀ u, g'.isRed u = (g.isRed u && decide (u ≠ v)) := by
    intro u
    rw [isRed, isRed, hkind]
    by_cases hu : u = v <;> simp [hu]
  have hflip : ∀ s t, g'.edgeKind? s t =
      if s = v ∨ t = v then (g.edgeKind? s t).map EdgeKind.flip else g.edgeKind? s t := by
    intro s t
    rw [ht.edgeKind?_eq, edgeKind?_setData]
    cases he : g.edgeKind? s t with
    | none => rw [Option.map_none, ite_self, ite_self]
    | some e =>
        have hkeys : s = v ∧ t ∈ (g.linksAt v).map Prod.fst ∨ t = v ∧ s ∈ (g.linksAt v).map Prod.fst ↔
            s = v ∨ t = v := by
          constructor
          · exact Or.imp And.left And.left
          · rintro (rfl | rfl)
            · exact .inl ⟨rfl, h.key_iff.mpr ⟨e, he⟩⟩
            · exact .inr ⟨rfl, h.key_iff.mpr ⟨e, (h.edgeKind?_comm _ _).trans he⟩⟩
        simp only [hkeys]
  refine ⟨⟨ht.consistent, fun u => ?_, fun u => ?_, fun s t => ?_, ht.inputs_eq, ht.outputs_eq,
    ht.scalar_eq, ht.vertexCount_eq⟩, hkind⟩
  · rw [hkind]
    by_cases hu : u = v
    · exact .inr ⟨hu ▸ hgx, if_pos hu⟩
    · exact .inl (if_neg hu)
  · rw [phase?, hdata, phase?]
    split
    · rename_i hu
      rw [hu, hd]
      rfl
    · rfl
  · have hrv : g.isRed v = true := decide_eq_true hgx
    rw [wire?, wire?, hflip]
    cases he : g.edgeKind? s t with
    | none => simp
    | some e =>
        have hst := h.ne_of_edgeKind? he
        by_cases hs : s = v
        · subst hs
          simp [tinted, hred, hrv, hst.symm]
        · by_cases htv : t = v
          · subst htv
            simp [tinted, hred, hrv, hs]
            rw [← EdgeKind.tint_true, ← EdgeKind.tint_true, EdgeKind.tint_comm]
          · simp [tinted, hred, hs, htv]

theorem toGreen_recoloured (h : g.Consistent) :
    ∃ g', g.toGreen = .ok g' ∧ Recoloured g g' ∧ ∀ v, g'.kind? v ≠ some .x := by
  have hrun : Ends g.toGreen (fun g' => Recoloured g g' ∧ ∀ v ∈ g.vertices, g'.kind? v ≠ some .x)
      fun _ => False := by
    unfold toGreen
    refine Ends.foldlM_done (I := fun done g' => Recoloured g g' ∧
      ∀ v ∈ done, g'.kind? v ≠ some .x) ?_ ⟨.refl h, by simp⟩
    rintro done v rest g₁ hsplit ⟨h₁, hdone⟩
    have hv : g₁.contains v := by
      rw [h₁.contains_eq]
      exact mem_vertices.mp (by simp [hsplit])
    obtain ⟨d, hd⟩ := contains_iff_data?.mp hv
    have hk₁ : g₁.kind? v = some d.kind := kind?_eq_some.mpr ⟨d, hd, rfl⟩
    simp only [kind_of_data? hd]
    change Ends (if d.kind = .x then _ else _) _ _
    by_cases hx : d.kind = .x
    · rw [if_pos hx, setKind_eq hd]
      have hcons := h₁.consistent.setData (v := v) { d with kind := .z }
      have hcontains : (g₁.setData v { d with kind := .z }).contains v :=
        (contains_setData _).trans hv
      change Ends ((g₁.setData v { d with kind := .z }).neighbours v >>= _) _ _
      rw [neighbours_of_contains hcontains, linksAt_setData]
      refine (toggleAll_toggled hcons (h₁.consistent.nodup v) fun w hw => ?_).imp fun g₂ h₂ => ?_
      · rw [edgeKind?_setData]
        exact h₁.consistent.key_iff.mp hw
      · obtain ⟨hrec, hkind⟩ := Toggled.recoloured h₁.consistent hd hx h₂
        refine ⟨h₁.trans hrec, fun u hu => ?_⟩
        rw [hkind]
        by_cases huv : u = v
        · simp [huv]
        · rw [if_neg huv]
          refine hdone u ?_
          simpa [huv] using hu
    · rw [if_neg hx, Ends.pure_iff]
      refine ⟨h₁, fun u hu => ?_⟩
      rw [List.mem_append, List.mem_singleton] at hu
      rcases hu with hu | rfl
      · exact hdone u hu
      · simp [hk₁, hx]
  obtain ⟨g', hg', hrec, hgreen⟩ := hrun.exists_ok
  refine ⟨g', hg', hrec, fun v hv => ?_⟩
  refine hgreen v (mem_vertices.mpr ?_) hv
  rw [← hrec.contains_eq]
  exact contains_of_kind? hv

end ZX.Diagram
