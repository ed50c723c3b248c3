import Mathlib
import ZX.Proofs.Rule.Account
import ZX.Proofs.Rule.Fusion
import ZX.Proofs.Rule.Headroom
import ZX.Proofs.Rule.Identity
import ZX.Proofs.Rule.Pivot

/-!
# Rewriting without a global factor

A rule that applies to a consistent diagram leads to a diagram with the very same linear map. Nothing
is assumed of the diagram beyond its consistency: it may have spiders of both colours and loose ends,
and the neighbours of the vertices that go may share edges with each other and be neighbours of both.
The only way for a rule to fail is an overflow, and there is none as long as the phases have small
denominators and the exponent of the scalar has room.
-/
namespace ZX.Diagram

open Finset EdgeKind

variable {g : Diagram} {v v₀ v₁ : ℕ} {p : Phase}

/-! ## Pivoting -/

/-- Without room for words pivoting may overflow; with room it has a result. -/
theorem exists_pivot_of_roomy (hg : g.Consistent) (hp : g.pivotable v₀ v₁ = true)
    (hroom : g.Roomy (fun p => p.den < 2 ^ 62)
      (3 * ((g.linksAt v₀).length * (g.linksAt v₁).length))) :
    ∃ g', g.pivot v₀ v₁ = .ok g' := by
  obtain ⟨⟨hz₀, hz₁, he⟩, ⟨p₀, hp₀, hpauli₀⟩, ⟨p₁, hp₁, hpauli₁⟩, -, -⟩ := pivotable_iff.mp hp
  have hpos : ∀ {v w}, g.edgeKind? v w = some .hadamard →
      0 < ((g.linksAt v).map Prod.fst).length := fun he' =>
    List.length_pos_of_mem (hg.key_iff.mpr ⟨_, he'⟩)
  have htakes : ∀ v ∈ [v₀, v₁], ∀ p, g.phase v = .ok p → p.Takes fun p => p.den < 2 ^ 62 := by
    intro v hv p hphase
    rcases List.mem_pair.mp hv with rfl | rfl
    · cases hphase.symm.trans (phase_of_phase? hp₀)
      exact Phase.takes_of_isPauli hpauli₀
    · cases hphase.symm.trans (phase_of_phase? hp₁)
      exact Phase.takes_of_isPauli hpauli₁
  have hspared := Roomy.pivot (by simpa only [List.length_map] using hroom)
    (neighbours_of_contains (contains_of_kind? hz₀)) (neighbours_of_contains (contains_of_kind? hz₁))
    (hpos he) (hpos ((hg.edgeKind?_comm _ _).trans he)) (Phase.takes_of_isPauli (by decide)) htakes
  obtain ⟨g', hg', -⟩ := (pivot_contracts hg hp hp₀ hp₁).exists_ok_of_not hspared
  exact ⟨g', hg'⟩

/-- Pivoting on two vertices of any consistent diagram removes just these two and keeps the linear
map. The scalar takes the factor of the two degrees, and a sign if both spiders turn by half. -/
theorem pivot_exact (hg : g.Consistent) (hp : g.pivotable v₀ v₁ = true) :
    Ends (g.pivot v₀ v₁)
      (fun g' => g'.Consistent ∧
        (∀ u, g'.contains u = true ↔ g.contains u = true ∧ u ≠ v₀ ∧ u ≠ v₁) ∧
        g'.inputs = g.inputs ∧ g'.outputs = g.outputs ∧
        (∀ β, g'.total g'.turn β = g.total g.turn β) ∧
        (∀ x y, g'.amplitude x y = g.amplitude x y) ∧
        ∃ p₀ p₁ bipartite joined, g.phase? v₀ = some p₀ ∧ g.phase? v₁ = some p₁ ∧
          completeBipartite v₀ v₁ p₁ ((g.linksAt v₀).map Prod.fst) ((g.linksAt v₁).map Prod.fst) g =
            .ok bipartite ∧
          ((g.linksAt v₁).map Prod.fst).foldlM (fun g w => g.addToPhase w p₀) bipartite =
            .ok joined ∧
          g'.scalar.value = (if !p₀.isZero && !p₁.isZero then -1 else 1) * (((√2 : ℝ) : ℂ) ^
            ((((g.linksAt v₀).length : ℤ) - 2) * ((g.linksAt v₁).length - 2)) * joined.scalar.value))
      (· = .overflow) ∧
    ((∀ v d, g.data? v = some d → d.phase.den < 2 ^ 62) → g.scalar.phase.den < 2 ^ 62 →
      |g.scalar.sqrt2Pow| + 3 * ((g.linksAt v₀).length * (g.linksAt v₁).length) < 2 ^ 31 →
      ∃ g', g.pivot v₀ v₁ = .ok g') := by
  obtain ⟨-, ⟨p₀, hp₀, hpauli₀⟩, ⟨p₁, hp₁, hpauli₁⟩, -, -⟩ := pivotable_iff.mp hp
  constructor
  · refine (pivot_contracts hg hp hp₀ hp₁).imp fun g' h => ?_
    obtain ⟨bipartite, joined, rest, hbipartite, hjoined, hcontracts, hrewrites, hvalue⟩ := h
    refine ⟨hcontracts.scaled.consistent, fun u => ?_, hrewrites.inputs_eq, hrewrites.outputs_eq,
      hrewrites.total_turn_eq, hrewrites.amplitude_eq, p₀, p₁, bipartite, joined, hp₀, hp₁,
      hbipartite, hjoined, ?_⟩
    · rw [← mem_support, hcontracts.support_eq, mem_erase, mem_erase, mem_support]
      tauto
    · rw [hvalue, Phase.pairing_unit hpauli₀ hpauli₁]
  · intro hphases hscalar hpow
    exact exists_pivot_of_roomy hg hp ⟨⟨hphases, hscalar⟩, by push_cast; exact hpow⟩

/-- Two spiders with half a turn each, joined to a common neighbour 2 and to 3 and 4, which share an
edge already. -/
def crossing : Diagram where
  slots := #[
    some ⟨⟨.z, Phase.one, 0, 1⟩, [(1, .hadamard), (2, .hadamard), (3, .hadamard)]⟩,
    some ⟨⟨.z, Phase.one, 1, 1⟩, [(0, .hadamard), (2, .hadamard), (4, .hadamard)]⟩,
    some ⟨⟨.z, Phase.zero, 2, 1⟩, [(0, .hadamard), (1, .hadamard)]⟩,
    some ⟨⟨.z, Phase.zero, 0, 2⟩, [(0, .hadamard), (4, .hadamard), (5, .plain)]⟩,
    some ⟨⟨.z, Phase.zero, 1, 2⟩, [(1, .hadamard), (3, .hadamard), (6, .plain)]⟩,
    some ⟨⟨.boundary, Phase.zero, 0, 0⟩, [(3, .plain)]⟩,
    some ⟨⟨.boundary, Phase.zero, 0, 3⟩, [(4, .plain)]⟩]
  holes := []
  inputs := [5]
  outputs := [6]
  vertexCount := 7
  edgeCount := 8
  scalar := Scalar.one

theorem pivot_exact_crossing : crossing.Consistent ∧ crossing.pivotable 0 1 = true ∧
    ∃ g', crossing.pivot 0 1 = .ok g' ∧ g'.edgeKind? 3 4 = none ∧ g'.edgeKind? 2 3 = some .hadamard ∧
      ∀ x y, g'.amplitude x y = crossing.amplitude x y := by
  have hg : crossing.Consistent := by decide +kernel
  have hp : crossing.pivotable 0 1 = true := by decide +kernel
  have hphases : ∀ v d, crossing.data? v = some d → d.phase.den < 2 ^ 62 := by
    intro v d hd
    have hall : ∀ v < 7, (crossing.data? v).all fun d => d.phase.den < 2 ^ 62 := by decide +kernel
    have hv := hall v (lt_size_of_contains (contains_of_data? hd))
    rwa [hd, Option.all_some, decide_eq_true_eq] at hv
  obtain ⟨hends, hroom⟩ := pivot_exact hg hp
  obtain ⟨g', hg'⟩ := hroom hphases (by decide +kernel) (by decide +kernel)
  have hedges : (crossing.pivot 0 1).toOption.all fun g' =>
      g'.edgeKind? 3 4 = none ∧ g'.edgeKind? 2 3 = some .hadamard := by decide +kernel
  rw [hg'] at hedges
  obtain ⟨hcut, hkept⟩ := of_decide_eq_true hedges
  obtain ⟨-, -, -, -, -, hmap, -⟩ := hends.of_eq_ok hg'
  exact ⟨hg, hp, g', hg', hcut, hkept, hmap⟩

/-! ## Fusion -/

/-- Fusing two spiders removes just the second one and keeps the linear map, whichever colours and
edges their common neighbours have. Boundary vertices keep their one edge, and a well-formed diagram
stays well-formed. -/
theorem fuse_exact (hg : g.Fringed) (hf : g.fusible v₀ v₁ = true) :
    Ends (g.fuse v₀ v₁)
      (fun g' => g'.Fringed ∧ (g.WellFormed → g'.WellFormed) ∧
        (∀ u, g'.contains u = true ↔ g.contains u = true ∧ u ≠ v₁) ∧
        g'.inputs = g.inputs ∧ g'.outputs = g.outputs ∧
        (∀ β, g'.total g'.turn β = g.total g.turn β) ∧ ∀ x y, g'.amplitude x y = g.amplitude x y)
      (· = .overflow) ∧
    ∀ D, 0 < D → D < 2 ^ 62 → (∀ v d, g.data? v = some d → d.phase.den ∣ D) →
      g.scalar.phase.den ∣ D → |g.scalar.sqrt2Pow| + 2 * (g.linksAt v₁).length < 2 ^ 31 →
      ∃ g', g.fuse v₀ v₁ = .ok g' := by
  obtain ⟨-, -, k, -, -, hk₁⟩ := fusible_iff.mp hf
  have hfuse := fuse_rewrites hg hf
  constructor
  · refine hfuse.imp fun g' h => ?_
    obtain ⟨hg', hrewrites, hsupport, hwell⟩ := h
    refine ⟨hg', hwell, fun u => ?_, hrewrites.inputs_eq, hrewrites.outputs_eq,
      hrewrites.total_turn_eq, hrewrites.amplitude_eq⟩
    rw [← mem_support, hsupport, mem_erase, mem_support, and_comm]
  · intro D hD hlt hphases hscalar hpow
    have hroom : g.Roomy (·.den ∣ D) (0 + 2 * (g.linksAt v₁).length) :=
      ⟨⟨hphases, hscalar⟩, by push_cast; omega⟩
    have hspared := hroom.fuse_of_dvd hD hlt (contains_of_kind? hk₁) v₀
    obtain ⟨g', hg', -⟩ := hfuse.exists_ok_of_not hspared
    exact ⟨g', hg'⟩

/-- Two green spiders with common neighbours 2, 3 and 4: to the green one they have edges of both
kinds, to the first red one two plain edges, which cancel, and to the other red one both kinds. -/
def meeting : Diagram where
  slots := #[
    some ⟨⟨.z, Phase.eighth, 0, 1⟩,
      [(1, .plain), (2, .hadamard), (3, .plain), (4, .plain), (5, .plain)]⟩,
    some ⟨⟨.z, Phase.quarter, 1, 1⟩,
      [(0, .plain), (2, .plain), (3, .plain), (4, .hadamard), (6, .hadamard)]⟩,
    some ⟨⟨.z, Phase.zero, 2, 1⟩, [(0, .hadamard), (1, .plain)]⟩,
    some ⟨⟨.x, Phase.zero, 3, 1⟩, [(0, .plain), (1, .plain)]⟩,
    some ⟨⟨.x, Phase.one, 4, 1⟩, [(0, .plain), (1, .hadamard)]⟩,
    some ⟨⟨.boundary, Phase.zero, 0, 0⟩, [(0, .plain)]⟩,
    some ⟨⟨.boundary, Phase.zero, 0, 2⟩, [(1, .hadamard)]⟩]
  holes := []
  inputs := [5]
  outputs := [6]
  vertexCount := 7
  edgeCount := 9
  scalar := Scalar.one

theorem fuse_exact_meeting : meeting.WellFormed ∧ meeting.fusible 0 1 = true ∧
    ∃ g', meeting.fuse 0 1 = .ok g' ∧ g'.WellFormed ∧ g'.edgeKind? 0 2 = some .plain ∧
      g'.edgeKind? 0 3 = none ∧ g'.edgeKind? 0 4 = some .hadamard ∧ g'.scalar.sqrt2Pow = -4 ∧
      ∀ x y, g'.amplitude x y = meeting.amplitude x y := by
  have hg : meeting.WellFormed := by decide +kernel
  have hf : meeting.fusible 0 1 = true := by decide +kernel
  have hphases : ∀ v d, meeting.data? v = some d → d.phase.den ∣ 4 :=
    forall_data?_of_all (by decide +kernel)
  obtain ⟨hends, hroom⟩ := fuse_exact hg.fringed hf
  obtain ⟨g', hg'⟩ := hroom 4 (by decide) (by decide) hphases (by decide +kernel) (by decide +kernel)
  have hedges : (meeting.fuse 0 1).toOption.all fun g' => g'.edgeKind? 0 2 = some .plain ∧
      g'.edgeKind? 0 3 = none ∧ g'.edgeKind? 0 4 = some .hadamard ∧ g'.scalar.sqrt2Pow = -4 := by
    decide +kernel
  rw [hg'] at hedges
  obtain ⟨hmixed, hcut, hred, hpow⟩ := of_decide_eq_true hedges
  obtain ⟨-, hwell, -, -, -, -, hmap⟩ := hends.of_eq_ok hg'
  exact ⟨hg, hf, g', hg', hwell hg, hmixed, hcut, hred, hpow, hmap⟩

/-! ## Identities -/

/-- Bridging an identity needs room for one more edge. -/
theorem exists_removeIdentity_of_roomy (hg : g.Fringed) (hr : g.removable v = true)
    (hroom : g.Roomy (fun p => p.den < 2 ^ 62) 2) : ∃ g', g.removeIdentity v = .ok g' := by
  have hspared : Ends (g.removeIdentity v) (Roomy (fun p => p.den < 2 ^ 62) 0) (· ≠ .overflow) := by
    refine (links_ne_overflow g v).bind fun links _ => ?_
    split
    · exact (hroom.removeVertex v).bind fun _ h =>
        h.connect (Phase.takes_of_isPauli (by decide)) _ _ _
    · exact Ends.throw_iff.mpr (by simp)
  obtain ⟨g', hg', -⟩ := (removeIdentity_rewrites hg hr).exists_ok_of_not hspared
  exact ⟨g', hg'⟩

/-- Removing an identity removes just its vertex and keeps the linear map, whatever the kinds of its
two neighbours are and whether they share an edge already. Boundary vertices keep their one edge, and
a well-formed diagram stays well-formed. -/
theorem removeIdentity_exact (hg : g.Fringed) (hr : g.removable v = true) :
    Ends (g.removeIdentity v)
      (fun g' => g'.Fringed ∧ (g.WellFormed → g'.WellFormed) ∧
        (∀ u, g'.contains u = true ↔ g.contains u = true ∧ u ≠ v) ∧
        g'.inputs = g.inputs ∧ g'.outputs = g.outputs ∧
        (∀ β, g'.total g'.turn β = g.total g.turn β) ∧ ∀ x y, g'.amplitude x y = g.amplitude x y)
      (· = .overflow) ∧
    ((∀ v d, g.data? v = some d → d.phase.den < 2 ^ 62) → g.scalar.phase.den < 2 ^ 62 →
      |g.scalar.sqrt2Pow| + 2 < 2 ^ 31 → ∃ g', g.removeIdentity v = .ok g') := by
  constructor
  · refine (removeIdentity_rewrites hg hr).imp fun g' h => ?_
    obtain ⟨hg', hrewrites, hsupport, hwell⟩ := h
    refine ⟨hg', hwell, fun u => ?_, hrewrites.inputs_eq, hrewrites.outputs_eq,
      hrewrites.total_turn_eq, hrewrites.amplitude_eq⟩
    rw [← mem_support, hsupport, mem_erase, mem_support, and_comm]
  · intro hphases hscalar hpow
    exact exists_removeIdentity_of_roomy hg hr ⟨⟨hphases, hscalar⟩, by exact_mod_cast hpow⟩

/-- A red identity between a green and a red spider, which share a plain edge already. -/
def detour : Diagram where
  slots := #[
    some ⟨⟨.z, Phase.eighth, 0, 1⟩, [(3, .plain), (1, .plain), (2, .hadamard)]⟩,
    some ⟨⟨.x, Phase.quarter, 0, 3⟩, [(2, .hadamard), (0, .plain), (4, .hadamard)]⟩,
    some ⟨⟨.x, Phase.zero, 1, 2⟩, [(0, .hadamard), (1, .hadamard)]⟩,
    some ⟨⟨.boundary, Phase.zero, 0, 0⟩, [(0, .plain)]⟩,
    some ⟨⟨.boundary, Phase.zero, 0, 4⟩, [(1, .hadamard)]⟩]
  holes := []
  inputs := [3]
  outputs := [4]
  vertexCount := 5
  edgeCount := 5
  scalar := Scalar.one

theorem removeIdentity_exact_detour : detour.WellFormed ∧ detour.removable 2 = true ∧
    ∃ g', detour.removeIdentity 2 = .ok g' ∧ g'.WellFormed ∧ g'.edgeKind? 0 1 = none ∧
      g'.scalar.sqrt2Pow = -2 ∧ ∀ x y, g'.amplitude x y = detour.amplitude x y := by
  have hg : detour.WellFormed := by decide +kernel
  have hr : detour.removable 2 = true := by decide +kernel
  obtain ⟨hends, hroom⟩ := removeIdentity_exact hg.fringed hr
  obtain ⟨g', hg'⟩ := hroom (forall_data?_of_all (by decide +kernel)) (by decide +kernel)
    (by decide +kernel)
  have hedges : (detour.removeIdentity 2).toOption.all fun g' =>
      g'.edgeKind? 0 1 = none ∧ g'.scalar.sqrt2Pow = -2 := by decide +kernel
  rw [hg'] at hedges
  obtain ⟨hcut, hpow⟩ := of_decide_eq_true hedges
  obtain ⟨-, hwell, -, -, -, -, hmap⟩ := hends.of_eq_ok hg'
  exact ⟨hg, hr, g', hg', hwell hg, hcut, hpow, hmap⟩

/-! ## Local complementation -/

/-- What local complementation at `v` leaves of a diagram, where `v` has the phase `p` and the
neighbours `ns`. All of these turn back by `p`, and each pair of them has one more Hadamard edge. A
pair that a plain edge joins keeps just that edge, and the first of the two turns by half instead. -/
structure Complemented (g : Diagram) (v : ℕ) (p : Phase) (ns : List ℕ) (g' : Diagram) : Prop where
  consistent : g'.Consistent
  data?_eq : ∀ u ∉ ns, g'.data? u = if u = v then none else g.data? u
  neighbour : ∀ u ∈ ns, ∀ d, g.data? u = some d → ∃ q, g'.data? u = some { d with phase := q } ∧
    q.angle = d.phase.angle - p.angle + g.view.later ns u • halfTurn
  edgeKind?_eq : ∀ a b, g'.edgeKind? a b = if a = v ∨ b = v then none else
    if a ∈ ns ∧ b ∈ ns ∧ a ≠ b then merge (g.edgeKind? a b) (some .hadamard) else g.edgeKind? a b
  inputs_eq : g'.inputs = g.inputs
  outputs_eq : g'.outputs = g.outputs
  scalarPhase_eq : g'.scalar.phase.angle =
    g.scalar.phase.angle + ((p.halfTurns / 2 : ℚ) : AddCircle (2 : ℚ))
  sqrt2Pow_eq : g'.scalar.sqrt2Pow =
    g.scalar.sqrt2Pow + ((ns.length : ℤ) - 1) * (ns.length - 2) / 2 -
      (2 * g.view.edgesIn .hadamard ns.toFinset + g.view.edgesIn .plain ns.toFinset)

/-- Only the scalar changes, by a power of `sqrt(2)` and by an angle. -/
def Rescaled (g : Diagram) (k : ℤ) (x : AddCircle (2 : ℚ)) (g' : Diagram) : Prop :=
  ∃ r : Scalar, g' = { g with scalar := r } ∧ r.sqrt2Pow = g.scalar.sqrt2Pow + k ∧
    r.phase.angle = g.scalar.phase.angle + x

theorem mulSqrt2Pow_rescaled (g : Diagram) (k : ℤ) :
    Ends (g.mulSqrt2Pow k) (g.Rescaled k 0) (· = .overflow) := by
  unfold mulSqrt2Pow Scalar.mulSqrt2Pow
  refine Ends.bind (P := fun r => r.phase = g.scalar.phase ∧ r.sqrt2Pow = g.scalar.sqrt2Pow + k) ?_
    fun r hr => Ends.pure_iff.mpr ⟨r, rfl, hr.2, by rw [hr.1, add_zero]⟩
  exact (Scalar.int32_ends _).bind fun m hm => Ends.pure_iff.mpr ⟨rfl, hm⟩

theorem mulPhase_rescaled (g : Diagram) (q : Phase) :
    Ends (g.mulPhase q) (g.Rescaled 0 q.angle) (· = .overflow) := by
  unfold mulPhase Scalar.mulPhase
  refine Ends.bind (P := fun r => r.phase.angle = g.scalar.phase.angle + q.angle ∧
    r.sqrt2Pow = g.scalar.sqrt2Pow) ?_
    fun r hr => Ends.pure_iff.mpr ⟨r, rfl, by rw [hr.2, add_zero], hr.1⟩
  exact (Phase.add_angle _ _).bind fun s hs => Ends.pure_iff.mpr ⟨hs, rfl⟩

/-- The neighbours have turned and are joined to each other, then `v` has gone and the scalar has
changed. -/
theorem complemented_of_completes {g₁ g₂ : Diagram} {r : Phase} {ns : List ℕ} {s : Scalar}
    (hg : g.Consistent) (hnodup : ns.Nodup) (hself : v ∉ ns) (hr : r.angle = -p.angle)
    (hg₁ : g₁.Consistent) (h₁ : g.view.Completes r ns g₁.view) (h₂ : Removed g₁ v g₂)
    (hphase : s.phase.angle =
      g₂.scalar.phase.angle + ((p.halfTurns / 2 : ℚ) : AddCircle (2 : ℚ)))
    (hpow : s.sqrt2Pow = g₂.scalar.sqrt2Pow + ((ns.length : ℤ) - 1) * (ns.length - 2) / 2) :
    g.Complemented v p ns { g₂ with scalar := s } := by
  have hdata : ∀ u, g₂.data? u = if u = v then none else g₁.view.data u := h₂.data?_eq
  refine ⟨(view_withScalar h₂.consistent s).1, fun u hu => ?_, fun u hu d hd => ?_, fun a b => ?_,
    h₂.inputs_eq.trans h₁.inputs_eq, h₂.outputs_eq.trans h₁.outputs_eq, ?_, ?_⟩
  · show g₂.data? u = _
    rw [hdata, h₁.data_eq (if_neg hu)]
    rfl
  · obtain ⟨q, hq, hangle⟩ := h₁.data_some hd
    refine ⟨q, ?_, ?_⟩
    · show g₂.data? u = _
      rw [hdata, if_neg (ne_of_mem_of_not_mem hu hself), hq]
    · rw [hangle, if_pos hu, hr]
      abel
  · show g₂.edgeKind? a b = _
    have hedge := h₁.edge_eq a b
    rw [hg₁.view_edge, hg.view_edge] at hedge
    by_cases ha : a = v
    · rw [if_pos (.inl ha), edgeKind?_eq_lookup, h₂.linksAt_eq, if_pos ha]
      rfl
    · rw [h₂.edgeKind?_eq_ite hg₁ ha, hedge]
      simp only [ha, false_or]
  · have hphase₁ : g₁.scalar.phase = g.scalar.phase := h₁.scalarPhase_eq
    rw [hphase, h₂.scalar_eq, hphase₁]
  · have hpow₁ : g₁.scalar.sqrt2Pow = g.scalar.sqrt2Pow - g.view.toll ns := h₁.sqrt2Pow_eq
    have hloop : ∀ u, g.view.edge s(u, u) = none := fun u =>
      (hg.view_edge u u).trans (hg.edgeKind?_self u)
    rw [hpow, h₂.scalar_eq, hpow₁, LabelledGraph.toll_eq hnodup hloop]
    push_cast
    ring

theorem localComplement_complemented (hg : g.Consistent) (hc : g.complementable v = true)
    (hp : g.phase? v = some p) :
    Ends (g.localComplement v) (g.Complemented v p ((g.linksAt v).map Prod.fst))
      (· = .overflow) := by
  obtain ⟨hz, ⟨p', hp', hproper⟩, hlinks⟩ := complementable_iff.mp hc
  obtain rfl : p = p' := Option.some_inj.mp (hp.symm.trans hp')
  have hnodup := hg.nodup v
  have hself : v ∉ (g.linksAt v).map Prod.fst := by
    intro hv
    obtain ⟨⟨w, e⟩, hl, rfl⟩ := List.mem_map.mp hv
    exact hg.ne hl rfl
  have hgreen : ∀ w ∈ (g.linksAt v).map Prod.fst, g.kind? w = some .z := by
    intro w hw
    obtain ⟨l, hl, rfl⟩ := List.mem_map.mp hw
    exact (hlinks l hl).2
  unfold localComplement
  rw [phase_of_phase? hp, neighbours_of_contains (contains_of_kind? hz)]
  generalize (g.linksAt v).map Prod.fst = ns at hnodup hself hgreen
  refine (Phase.neg_angle p).bind fun r hr => ?_
  refine (completeGraph_completes r ns hg hnodup hgreen).bind fun g₁ h₁ => ?_
  obtain ⟨hg₁, h₁⟩ := h₁
  have hcontains₁ : g₁.contains v = true := contains_of_kind? ((h₁.kind?_eq v).trans hz)
  obtain ⟨g₂, hg₂, h₂⟩ := removeVertex_removed hg₁ hcontains₁
  simp only [hg₂]
  refine (Scalar.int32_ends _).bind fun m hm => ?_
  refine (mulSqrt2Pow_rescaled g₂ (m / 2)).bind fun g₃ h₃ => ?_
  refine (Phase.ofFraction_ends p.num (d := 4) (by decide)).bind fun f hf => ?_
  refine (mulPhase_rescaled g₃ f).imp fun g₄ h₄ => ?_
  obtain ⟨s₃, rfl, hpow₃, hphase₃⟩ := h₃
  obtain ⟨s₄, rfl, hpow₄, hphase₄⟩ := h₄
  have hcomplemented : g.Complemented v p ns { g₂ with scalar := s₄ } := by
    refine complemented_of_completes hg hnodup hself hr hg₁ h₁ h₂ ?_ ?_
    · rw [hphase₄, hphase₃, Phase.angle_of_sameAngle hf, Phase.divInt_num_four hproper, add_zero]
    · rw [hpow₄, hpow₃, hm, add_zero]
  exact hcomplemented

/-- Local complementation at a vertex of any consistent diagram removes just this vertex, leaves a
diagram that is complemented on its neighbours and keeps the linear map. -/
theorem localComplement_exact (hg : g.Consistent) (hc : g.complementable v = true)
    (hp : g.phase? v = some p) :
    Ends (g.localComplement v)
      (fun g' => g.Complemented v p ((g.linksAt v).map Prod.fst) g' ∧
        (∀ u, g'.contains u = true ↔ g.contains u = true ∧ u ≠ v) ∧
        (∀ β, g'.total g'.turn β = g.total g.turn β) ∧ ∀ x y, g'.amplitude x y = g.amplitude x y)
      (· = .overflow) ∧
    ((∀ v d, g.data? v = some d → d.phase.den < 2 ^ 60) → g.scalar.phase.den < 2 ^ 60 →
      |g.scalar.sqrt2Pow| + (2 * (g.linksAt v).length ^ 2 + 2) < 2 ^ 31 →
      ∃ g', g.localComplement v = .ok g') := by
  obtain ⟨hz, ⟨p', hp', hproper⟩, -⟩ := complementable_iff.mp hc
  obtain rfl : p = p' := Option.some_inj.mp (hp.symm.trans hp')
  have hends := (localComplement_complemented hg hc hp).and (localComplement_contracts hg hc)
  constructor
  · refine hends.imp fun g' h => ?_
    obtain ⟨hcomplemented, hrewrites, joined, rest, hcontracts⟩ := h
    refine ⟨hcomplemented, fun u => ?_, hrewrites.total_turn_eq, hrewrites.amplitude_eq⟩
    rw [← mem_support, hcontracts.support_eq, mem_erase, mem_support, and_comm]
  · intro hphases hscalar hpow
    have hlcm : ∀ n < 2 ^ 60, n.lcm 4 < 2 ^ 62 := fun n hn =>
      (Nat.div_le_self (n * 4) _).trans_lt (by omega)
    have hroom : g.Roomy (fun p => p.den.lcm 4 < 2 ^ 62)
        (2 * ((g.linksAt v).map Prod.fst).length ^ 2 + 2) :=
      ⟨⟨fun u d hd => hlcm _ (hphases u d hd), hlcm _ hscalar⟩,
        by rw [List.length_map]; exact_mod_cast hpow⟩
    have hspared := hroom.localComplement (neighbours_of_contains (contains_of_kind? hz))
      (phase_of_phase? hp) (Phase.takes_of_dvd_four (by decide))
      (Phase.neg_takes hproper) (Phase.ofFraction_takes hproper)
    obtain ⟨g', hg', -⟩ := hends.exists_ok_of_not hspared
    exact ⟨g', hg'⟩

/-- A spider with a quarter turn and three neighbours, of which the first and the last share a plain
edge and the other pairs a Hadamard edge and none. -/
def fan : Diagram where
  slots := #[
    some ⟨⟨.z, Phase.quarter, 0, 1⟩, [(1, .hadamard), (2, .hadamard), (3, .hadamard)]⟩,
    some ⟨⟨.z, Phase.zero, 1, 1⟩, [(0, .hadamard), (2, .hadamard), (3, .plain), (4, .plain)]⟩,
    some ⟨⟨.z, Phase.eighth, 2, 1⟩, [(0, .hadamard), (1, .hadamard)]⟩,
    some ⟨⟨.z, Phase.one, 3, 1⟩, [(0, .hadamard), (1, .plain)]⟩,
    some ⟨⟨.boundary, Phase.zero, 1, 0⟩, [(1, .plain)]⟩]
  holes := []
  inputs := [4]
  outputs := []
  vertexCount := 5
  edgeCount := 6
  scalar := Scalar.one

theorem localComplement_exact_fan : fan.Consistent ∧ fan.complementable 0 = true ∧
    ∃ g', fan.localComplement 0 = .ok g' ∧ g'.edgeKind? 1 2 = none ∧
      g'.edgeKind? 2 3 = some .hadamard ∧ fan.Complemented 0 Phase.quarter [1, 2, 3] g' ∧
      ∀ x y, g'.amplitude x y = fan.amplitude x y := by
  have hg : fan.Consistent := by decide +kernel
  have hc : fan.complementable 0 = true := by decide +kernel
  obtain ⟨hends, hroom⟩ := localComplement_exact hg hc (p := Phase.quarter) (by decide +kernel)
  obtain ⟨g', hg'⟩ := hroom (forall_data?_of_all (by decide +kernel)) (by decide +kernel)
    (by decide +kernel)
  have hedges : (fan.localComplement 0).toOption.all fun g' =>
      g'.edgeKind? 1 2 = none ∧ g'.edgeKind? 2 3 = some .hadamard := by decide +kernel
  rw [hg'] at hedges
  obtain ⟨hcut, hnew⟩ := of_decide_eq_true hedges
  obtain ⟨hcomplemented, -, -, hmap⟩ := hends.of_eq_ok hg'
  exact ⟨hg, hc, g', hg', hcut, hnew, hcomplemented, hmap⟩

/-- Two neighbours of a spider with a quarter turn that share a plain edge. -/
def wedge : Diagram where
  slots := #[
    some ⟨⟨.z, Phase.quarter, 0, 0⟩, [(1, .hadamard), (2, .hadamard)]⟩,
    some ⟨⟨.z, Phase.zero, 0, 0⟩, [(0, .hadamard), (2, .plain)]⟩,
    some ⟨⟨.z, Phase.zero, 0, 0⟩, [(0, .hadamard), (1, .plain)]⟩]
  holes := []
  inputs := []
  outputs := []
  vertexCount := 3
  edgeCount := 3
  scalar := Scalar.one

/-- The plain edge swallows the new Hadamard edge, and only the second neighbour turns back. -/
theorem localComplement_swallows_wedge : wedge.Consistent ∧ wedge.complementable 0 = true ∧
    ∃ g', wedge.localComplement 0 = .ok g' ∧ g'.edgeKind? 1 2 = some .plain ∧
      g'.phase? 1 = some Phase.quarter ∧ g'.phase? 2 = some Phase.negQuarter ∧
      g'.scalar = ⟨-1, Phase.eighth⟩ := by
  refine ⟨by decide +kernel, by decide +kernel, ?_⟩
  have hrun : (wedge.localComplement 0).toOption.any fun g' => g'.edgeKind? 1 2 = some .plain ∧
      g'.phase? 1 = some Phase.quarter ∧ g'.phase? 2 = some Phase.negQuarter ∧
      g'.scalar = ⟨-1, Phase.eighth⟩ := by decide +kernel
  obtain ⟨g', hg', hread⟩ := exists_ok_of_any hrun
  exact ⟨g', hg', of_decide_eq_true hread⟩

end ZX.Diagram
