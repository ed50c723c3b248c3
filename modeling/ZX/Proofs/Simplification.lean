import Mathlib
import ZX.Proofs.FixedPoint
import ZX.Proofs.Recolouring
import ZX.Proofs.Rule.Fusion
import ZX.Proofs.Rule.Identity
import ZX.Proofs.Rule.Pivot
import ZX.Simplify

/-!
# Simplification keeps the map

Each of the four rules on diagrams keeps the map and the boundary and removes a vertex wherever it
applies. Since the first place of a batch is always valid, every batch makes progress, and all loops
of the strategy end. `simplify_exact` states what comes out: a well-formed diagram with the same
inputs and outputs and exactly the same amplitudes.
-/
namespace ZX.Diagram

variable {g : Diagram} {s t : ℕ} {e : EdgeKind}

/-- A rewrite that leaves a well-formed diagram with fewer vertices. -/
def Shrinks (g g' : Diagram) : Prop :=
  g'.WellFormed ∧ Rewrites g g' ∧ g'.vertexCount < g.vertexCount

/-! ## Batches -/

/-- A rule on diagrams whose every step leaves fewer vertices. -/
theorem progress_of_step {μ : Type} {r : Rule Diagram μ} (test : Diagram → μ → Bool)
    (step : Diagram → μ → Except Fault Diagram)
    (hstep : ∀ g m, g.WellFormed → test g m = true → Ends (step g m) (Shrinks g) (· = .overflow))
    (hmeasure : r.measure = vertexCount)
    (hplaces : ∀ g, ∃ found, r.places g = .ok found ∧ ∀ m ∈ found, test g m = true)
    (hact : ∀ g found, r.act g found =
      found.foldlM (fun g m => if test g m then step g m else pure g) g) :
    r.Progress WellFormed Rewrites (· = .overflow) := by
  have hadvances : r.Advances WellFormed Rewrites (· = .overflow) (fun _ => True) test step := by
    intro g m hg _ ht
    rw [hmeasure]
    exact hstep g m hg ht
  refine hadvances.progress Rewrites.refl (fun _ _ _ => Rewrites.trans) (fun g => ?_) hact
  obtain ⟨found, hfound, hvalid⟩ := hplaces g
  exact ⟨found, hfound, fun m hm => ⟨trivial, hvalid m hm⟩⟩

theorem mem_edgesWhere {test : ℕ → ℕ → Bool} {m : ℕ × ℕ} (h : m ∈ g.edgesWhere test) :
    test m.1 m.2 = true := (List.mem_filter.mp h).2

theorem mem_edgesWhere_of_edgeKind? {test : ℕ → ℕ → Bool} (hg : g.Consistent)
    (he : g.edgeKind? s t = some e) (hst : s ≤ t) (htest : test s t = true) :
    (s, t) ∈ g.edgesWhere test := by
  obtain ⟨x, hx⟩ := contains_iff.mp (hg.contains_left he)
  have hlink : (t, e) ∈ x.links := by
    rw [← linksAt_of_vertex? hx]
    exact hg.edgeKind?_iff.mp he
  have hedge : (s, t, e) ∈ g.edges := by
    refine List.mem_flatMap.mpr ⟨s, mem_vertices.mpr (hg.contains_left he), ?_⟩
    rw [hx]
    refine List.mem_map.mpr ⟨(t, e), List.mem_filter.mpr ⟨hlink, ?_⟩, rfl⟩
    exact decide_eq_true hst
  exact List.mem_filter.mpr ⟨List.mem_map.mpr ⟨(s, t, e), hedge, rfl⟩, htest⟩

/-- Trying a step that may not apply. -/
theorem tried_eq {b : Bool} {x : Except Fault Diagram} :
    (do return (← (if b then return some (← x) else return none : Except Fault (Option Diagram))).getD g)
      = if b then x else pure g := by
  cases b with
  | false => rfl
  | true => cases x <;> rfl

theorem fusion_act (g : Diagram) (found : List (ℕ × ℕ)) : Rule.fusion.act g found =
    found.foldlM (fun g m => if g.fusible m.1 m.2 then g.fuse m.1 m.2 else pure g) g :=
  congrArg (List.foldlM · g found) (funext₂ fun _ (_, _) => tried_eq)

theorem fusion_progress : Rule.fusion.Progress WellFormed Rewrites (· = .overflow) :=
  progress_of_step (fun g m => g.fusible m.1 m.2) (fun g m => g.fuse m.1 m.2)
    (fun _ _ hg ht => fuse_ends hg ht) rfl (fun _ => ⟨_, rfl, fun _ hm => mem_edgesWhere hm⟩)
    fusion_act

/-- Where there is no place for a fusion, no plain edge joins green spiders. -/
theorem edgeKind?_ne_plain (hg : g.Consistent) (hplaces : Rule.fusion.places g = .ok [])
    (hs : g.kind? s = some .z) (ht : g.kind? t = some .z) : g.edgeKind? s t ≠ some .plain := by
  -- Places are listed with the smaller end first.
  wlog hst : s ≤ t generalizing s t
  · rw [hg.edgeKind?_comm]
    exact this ht hs (Nat.le_of_not_le hst)
  intro he
  have hmem := mem_edgesWhere_of_edgeKind? hg he hst
    (fusible_iff.mpr ⟨hg.ne_of_edgeKind? he, he, .z, by simp, hs, ht⟩)
  have hnone : g.edgesWhere g.fusible = [] := Except.ok.inj hplaces
  rw [hnone] at hmem
  exact List.not_mem_nil hmem

theorem identity_progress : Rule.identity.Progress WellFormed Rewrites (· = .overflow) := by
  refine progress_of_step removable removeIdentity
    (fun _ _ hg ht => removeIdentity_ends hg ht) rfl
    (fun _ => ⟨_, rfl, fun _ hm => (List.mem_filter.mp hm).2⟩) fun g found => ?_
  exact congrArg (List.foldlM · g found) (funext₂ fun _ _ => tried_eq)

theorem localComplement_progress :
    Rule.localComplement.Progress WellFormed Rewrites (· = .overflow) := by
  refine progress_of_step complementable localComplement
    (fun _ _ hg ht => localComplement_ends hg ht) rfl
    (fun _ => ⟨_, rfl, fun _ hm => (List.mem_filter.mp hm).2⟩) fun g found => ?_
  exact congrArg (List.foldlM · g found) (funext₂ fun _ _ => tried_eq)

theorem pivot_progress : Rule.pivot.Progress WellFormed Rewrites (· = .overflow) := by
  refine progress_of_step (fun g m => g.pivotable m.1 m.2) (fun g m => g.pivot m.1 m.2)
    (fun _ _ hg ht => pivot_ends hg ht) rfl
    (fun _ => ⟨_, rfl, fun _ hm => mem_edgesWhere hm⟩) fun g found => ?_
  exact congrArg (List.foldlM · g found) (funext₂ fun _ (_, _) => tried_eq)

/-! ## The strategy -/

/-- What a loop of the strategy reports: a well-formed rewrite that lost a vertex if it changed. -/
structure Reduced (g : Diagram) (result : Bool × Diagram) : Prop where
  wellFormed : result.2.WellFormed
  rewrites : Rewrites g result.2
  vertexCount_le : result.2.vertexCount ≤ g.vertexCount
  vertexCount_lt : result.1 = true → result.2.vertexCount < g.vertexCount

theorem fixedPoint_reduced {μ : Type} {r : Rule Diagram μ}
    (h : r.Progress WellFormed Rewrites (· = .overflow))
    (hmeasure : ∀ g, r.measure g = g.vertexCount) (hg : g.WellFormed) :
    Ends (r.fixedPoint g).outcome (Reduced g) (· = .overflow) :=
  (Rule.fixedPoint_settled h Rewrites.refl (fun _ _ _ => Rewrites.trans) hg).imp fun result hr =>
    ⟨hr.keeps, hr.related, by simpa only [hmeasure] using hr.measure_le,
      by simpa only [hmeasure] using hr.measure_lt⟩

theorem Reduced.trans {b c : Bool} {g₁ g₂ : Diagram} (h : Reduced g (b, g₁))
    (h' : Reduced g₁ (c, g₂)) : Reduced g (c || b, g₂) where
  wellFormed := h'.wellFormed
  rewrites := h.rewrites.trans h'.rewrites
  vertexCount_le := h'.vertexCount_le.trans h.vertexCount_le
  vertexCount_lt hc := by
    rw [Bool.or_eq_true] at hc
    rcases hc with hc | hc
    · exact (h'.vertexCount_lt hc).trans_le h.vertexCount_le
    · exact h'.vertexCount_le.trans_lt (h.vertexCount_lt hc)

theorem interiorPass_reduced (hg : g.WellFormed) :
    Ends g.interiorPass.outcome (Reduced g) (· = .overflow) := by
  unfold interiorPass
  refine Ends.run_bind (fixedPoint_reduced identity_progress (fun _ => rfl) hg) fun (b₁, g₁) h₁ => ?_
  refine Ends.run_bind (fixedPoint_reduced fusion_progress (fun _ => rfl) h₁.wellFormed)
    fun (b₂, g₂) h₂ => ?_
  refine Ends.run_bind (fixedPoint_reduced pivot_progress (fun _ => rfl) h₂.wellFormed)
    fun (b₃, g₃) h₃ => ?_
  refine Ends.run_bind (fixedPoint_reduced localComplement_progress (fun _ => rfl) h₃.wellFormed)
    fun (b₄, g₄) h₄ => Ends.ok_iff.mpr ?_
  have h := ((h₁.trans h₂).trans h₃).trans h₄
  simpa only [Bool.or_assoc] using h

theorem interiorPasses_reduced (n : ℕ) (hg : g.WellFormed) (hn : g.vertexCount < n) :
    Ends (interiorPasses n g).outcome (Reduced g) (· = .overflow) := by
  induction n generalizing g with
  | zero => exact absurd hn (Nat.not_lt_zero _)
  | succ n ih =>
      unfold interiorPasses
      refine Ends.run_bind (interiorPass_reduced hg) fun (changed, g₁) h₁ => ?_
      cases changed with
      | false => exact Ends.ok_iff.mpr h₁
      | true =>
          have hlt : g₁.vertexCount < g.vertexCount := h₁.vertexCount_lt rfl
          refine Ends.run_bind (ih h₁.wellFormed (by omega)) fun (b, g₂) h₂ => Ends.ok_iff.mpr ?_
          simpa only [Bool.or_true] using h₁.trans h₂

theorem simplifyInterior_reduced (hg : g.WellFormed) :
    Ends g.simplifyInterior.outcome
      (fun result => result.2.WellFormed ∧ Rewrites g result.2) (· = .overflow) := by
  unfold simplifyInterior
  refine Ends.run_bind (fixedPoint_reduced fusion_progress (fun _ => rfl) hg) fun (b₁, g₁) h₁ => ?_
  obtain ⟨g₂, hg₂, hrec, -⟩ := toGreen_recoloured h₁.wellFormed.toConsistent
  refine Ends.run_bind (P := (· = g₂)) (Ends.of_exists_ok ⟨g₂, hg₂, rfl⟩) ?_
  rintro _ rfl
  have hwf := hrec.wellFormed h₁.wellFormed
  exact (interiorPasses_reduced _ hwf (Nat.lt_succ_self _)).imp fun result h =>
    ⟨h.wellFormed, (h₁.rewrites.trans hrec.rewrites).trans h.rewrites⟩

theorem simplify_rewrites (hg : g.WellFormed) :
    Ends g.simplify.outcome (fun result => result.2.WellFormed ∧ Rewrites g result.2)
      (· = .overflow) := by
  unfold simplify
  refine Ends.run_bind (simplifyInterior_reduced hg) fun (b₁, g₁) h₁ => ?_
  refine Ends.run_bind (fixedPoint_reduced fusion_progress (fun _ => rfl) h₁.1) fun (b₂, g₂) h₂ => ?_
  exact Ends.run_emit (Ends.ok_iff.mpr ⟨h₂.wellFormed, h₁.2.trans h₂.rewrites⟩)

/-- On every well-formed diagram simplification ends, unless a machine integer overflows, with a
well-formed diagram that has the same inputs, the same outputs and exactly the same linear map. -/
theorem simplify_exact (hg : g.WellFormed) :
    (∃ result, g.simplify.outcome = .ok result ∧ result.2.WellFormed ∧
      result.2.inputs = g.inputs ∧ result.2.outputs = g.outputs ∧
      ∀ x y, result.2.amplitude x y = g.amplitude x y) ∨
    g.simplify.outcome = .error .overflow := by
  refine Ends.ok_or_error ((simplify_rewrites hg).imp fun result h => ?_)
  exact ⟨h.1, h.2.inputs_eq, h.2.outputs_eq, h.2.amplitude_eq⟩

/-- Two qubits that change places. The spiders 5 and 6 in front of the outputs are joined to each other
and both to the red spider 3, and the spider 4 makes a quarter turn. -/
def braid : Diagram where
  slots := #[
    some ⟨⟨.boundary, Phase.zero, 0, 0⟩, [(2, .plain)]⟩,
    some ⟨⟨.boundary, Phase.zero, 1, 0⟩, [(3, .plain)]⟩,
    some ⟨⟨.z, Phase.eighth, 0, 1⟩, [(0, .plain), (4, .hadamard)]⟩,
    some ⟨⟨.x, Phase.negEighth, 1, 1⟩, [(1, .plain), (5, .plain), (6, .plain)]⟩,
    some ⟨⟨.z, Phase.quarter, 0, 2⟩, [(2, .hadamard), (5, .hadamard)]⟩,
    some ⟨⟨.z, Phase.zero, 0, 3⟩, [(4, .hadamard), (3, .plain), (6, .hadamard), (8, .plain)]⟩,
    some ⟨⟨.z, Phase.eighth, 1, 3⟩, [(3, .plain), (5, .hadamard), (7, .plain)]⟩,
    some ⟨⟨.boundary, Phase.zero, 0, 4⟩, [(6, .plain)]⟩,
    some ⟨⟨.boundary, Phase.zero, 1, 4⟩, [(5, .plain)]⟩]
  holes := []
  inputs := [0, 1]
  outputs := [7, 8]
  vertexCount := 9
  edgeCount := 9
  scalar := Scalar.one

theorem simplify_exact_braid : braid.WellFormed ∧
    ∃ result, braid.simplify.outcome = .ok result ∧ result.2.WellFormed ∧
      result.2.inputs = [0, 1] ∧ result.2.outputs = [7, 8] ∧
      ∀ x y, result.2.amplitude x y = braid.amplitude x y := by
  have hwf : braid.WellFormed := by decide +kernel
  refine ⟨hwf, (simplify_exact hwf).resolve_right fun hoverflow => ?_⟩
  have hok : braid.simplify.outcome.toOption.isSome = true := by decide +kernel
  rw [hoverflow] at hok
  exact absurd hok (by decide)

end ZX.Diagram
