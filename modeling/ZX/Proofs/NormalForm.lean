import Mathlib
import ZX.Proofs.Extraction.Padding

/-!
# What simplification leaves

A pass that reports no change found no place for any of the four rules, and the passes stop at such
a pass. So the diagram they leave offers no place at all, the last fusion has nothing to do, and a
second simplification ends after one pass over the same diagram. What the empty lists of places mean
is said in terms of the diagram: its spiders are green, they meet on Hadamard edges only, no interior
spider makes a quarter turn, and of two interior neighbours one has a phase that is no multiple of
half a turn.
-/
namespace ZX.Diagram

variable {g g' : Diagram} {u v : ℕ} {p q : Phase}

/-! ## Diagrams without places -/

/-- No rule of the strategy has a place. -/
structure Idle (g : Diagram) : Prop where
  identity : Rule.identity.places g = .ok []
  fusion : Rule.fusion.places g = .ok []
  pivot : Rule.pivot.places g = .ok []
  localComplement : Rule.localComplement.places g = .ok []

theorem interiorPass_eq_false :
    g.interiorPass.outcome = .ok (false, g') ↔ g' = g ∧ g.Idle := by
  constructor
  · intro h
    obtain ⟨⟨b₁, g₁⟩, h₁, h⟩ := Run.exists_of_bind_eq_ok h
    obtain ⟨⟨b₂, g₂⟩, h₂, h⟩ := Run.exists_of_bind_eq_ok h
    obtain ⟨⟨b₃, g₃⟩, h₃, h⟩ := Run.exists_of_bind_eq_ok h
    obtain ⟨⟨b₄, g₄⟩, h₄, h⟩ := Run.exists_of_bind_eq_ok h
    rw [Run.outcome_pure, Except.ok.injEq, Prod.mk.injEq] at h
    obtain ⟨hb, rfl⟩ := h
    simp only [Bool.or_eq_false_iff] at hb
    obtain ⟨⟨⟨rfl, rfl⟩, rfl⟩, rfl⟩ := hb
    obtain ⟨rfl, hidentity⟩ := Rule.fixedPoint_eq_false.mp h₁
    obtain ⟨rfl, hfusion⟩ := Rule.fixedPoint_eq_false.mp h₂
    obtain ⟨rfl, hpivot⟩ := Rule.fixedPoint_eq_false.mp h₃
    obtain ⟨rfl, hcomplement⟩ := Rule.fixedPoint_eq_false.mp h₄
    exact ⟨rfl, hidentity, hfusion, hpivot, hcomplement⟩
  · rintro ⟨rfl, h⟩
    simp only [interiorPass, removeIdentities, fuseAll, pivotAll, complementAll, Run.outcome_bind,
      Rule.fixedPoint_eq_false.mpr ⟨rfl, h.identity⟩, Rule.fixedPoint_eq_false.mpr ⟨rfl, h.fusion⟩,
      Rule.fixedPoint_eq_false.mpr ⟨rfl, h.pivot⟩,
      Rule.fixedPoint_eq_false.mpr ⟨rfl, h.localComplement⟩, Except.bind, Run.outcome_pure,
      Bool.or_self]

theorem interiorPasses_idle {n : ℕ} {b : Bool} (h : (interiorPasses n g).outcome = .ok (b, g')) :
    g'.Idle := by
  induction n generalizing g b with
  | zero => cases h
  | succ n ih =>
      obtain ⟨⟨changed, g₁⟩, hpass, h⟩ := Run.exists_of_bind_eq_ok h
      cases changed with
      | true =>
          obtain ⟨⟨b', g₂⟩, hrest, h⟩ := Run.exists_of_bind_eq_ok h
          cases h
          exact ih hrest
      | false =>
          cases h
          obtain ⟨rfl, hidle⟩ := interiorPass_eq_false.mp hpass
          exact hidle

theorem Idle.interiorPasses_eq (h : g.Idle) (n : ℕ) :
    (interiorPasses (n + 1) g).outcome = .ok (false, g) := by
  rw [interiorPasses, Run.outcome_bind, interiorPass_eq_false.mpr ⟨rfl, h⟩]
  rfl

/-- The last fusion finds nothing that the passes have left. -/
theorem simplify_eq_ok {b : Bool} (h : g.simplify.outcome = .ok (b, g')) :
    g.simplifyInterior.outcome = .ok (b, g') ∧ g'.Idle := by
  obtain ⟨⟨b₁, g₁⟩, hinterior, h⟩ := Run.exists_of_bind_eq_ok h
  have hidle : g₁.Idle := by
    obtain ⟨⟨b, g₂⟩, -, hrecolour⟩ := Run.exists_of_bind_eq_ok hinterior
    obtain ⟨g₃, -, hpasses⟩ := Run.exists_of_bind_eq_ok hrecolour
    exact interiorPasses_idle hpasses
  obtain ⟨r, hfuse, h⟩ := Run.exists_of_bind_eq_ok h
  rw [fuseAll, Rule.fixedPoint_eq_false.mpr ⟨rfl, hidle.fusion⟩] at hfuse
  cases hfuse
  cases h
  exact ⟨hinterior, hidle⟩

/-! ## Simplified diagrams -/

/-- A green diagram whose spiders meet on Hadamard edges and that offers no place to any rule. -/
structure Simplified (g : Diagram) : Prop extends g.Fused, g.Idle

theorem simplifyInterior_green (hg : g.WellFormed) :
    Ends g.simplifyInterior.outcome (fun r => ∀ v, r.2.kind? v ≠ some .x) (· = .overflow) := by
  unfold simplifyInterior
  refine Ends.run_bind (fixedPoint_reduced fusion_progress (fun _ => rfl) hg) fun (_, g₁) h₁ => ?_
  obtain ⟨g₂, hg₂, hrec, hgreen⟩ := toGreen_recoloured h₁.wellFormed.toConsistent
  refine Ends.run_bind (P := (· = g₂)) (Ends.of_exists_ok ⟨g₂, hg₂, rfl⟩) ?_
  rintro _ rfl
  have hwf := hrec.wellFormed h₁.wellFormed
  exact (interiorPasses_reduced _ hwf (Nat.lt_succ_self _)).imp fun _ h v hv =>
    hgreen v (h.rewrites.red v hv)

theorem simplify_simplified (hg : g.WellFormed) :
    Ends g.simplify.outcome (fun r => r.2.Simplified) (· = .overflow) := by
  refine ⟨fun (b, g') h => ?_, (simplify_rewrites hg).2⟩
  obtain ⟨hinterior, hidle⟩ := simplify_eq_ok h
  have hgreen := (simplifyInterior_green hg).of_eq_ok hinterior
  have hsettled : Rule.fusion.Settled WellFormed Rewrites g' (false, g') :=
    ⟨((simplify_rewrites hg).of_eq_ok h).1, .refl g', hidle.fusion, Nat.le_refl _,
      fun hc => by cases hc⟩
  have hfused : g'.Fused := fused_of_settled hsettled hgreen
  exact ⟨hfused, hidle⟩

theorem toGreen_of_green (h : ∀ v, g.kind? v ≠ some .x) : g.toGreen = .ok g := by
  have hrun : Ends g.toGreen (· = g) fun _ => False := by
    refine Ends.foldlM_mem (fun v hv b hb => ?_) rfl
    subst hb
    obtain ⟨k, hk⟩ := exists_kind? (mem_vertices.mp hv)
    have hkx : k ≠ .x := by
      rintro rfl
      exact h v hk
    rw [kind_of_kind? hk]
    show Ends (if k = .x then _ else _) _ _
    rw [if_neg hkx]
    exact Ends.pure_iff.mpr rfl
  obtain ⟨g', hok, rfl⟩ := hrun.exists_ok
  exact hok

/-- A spider whose neighbours are spiders. -/
def IsInterior (g : Diagram) (v : ℕ) : Prop :=
  g.kind? v = some .z ∧ ∀ t, g.connected v t = true → g.kind? t = some .z

namespace Simplified

theorem simplify_eq (h : g.Simplified) : g.simplify.outcome = .ok (false, g) := by
  have hfuse : g.fuseAll.outcome = .ok (false, g) :=
    Rule.fixedPoint_eq_false.mpr ⟨rfl, h.fusion⟩
  have hinterior : g.simplifyInterior.outcome = .ok (false, g) := by
    rw [simplifyInterior, Run.outcome_bind, hfuse]
    show ((liftM g.toGreen : Run Fault Diagram) >>= fun g =>
      interiorPasses (g.vertexCount + 1) g).outcome = _
    rw [toGreen_of_green h.green, Run.outcome_bind]
    exact h.toIdle.interiorPasses_eq _
  rw [simplify, Run.outcome_bind, hinterior]
  show (g.fuseAll >>= _).outcome = _
  rw [Run.outcome_bind, hfuse]
  rfl

theorem link_of_isInterior (h : g.Simplified) (hv : g.IsInterior v) {l : ℕ × EdgeKind}
    (hl : l ∈ g.linksAt v) : l.2 = .hadamard ∧ g.kind? l.1 = some .z := by
  have he : g.edgeKind? v l.1 = some l.2 := h.toConsistent.edgeKind?_iff.mpr hl
  have hz : g.kind? l.1 = some .z := hv.2 l.1 (by rw [connected, he]; rfl)
  exact ⟨h.spider_edge hv.1 hz he, hz⟩

theorem isProperClifford_eq_false (h : g.Simplified) (hv : g.IsInterior v)
    (hp : g.phase? v = some p) : p.isProperClifford = false := by
  rw [← Bool.not_eq_true]
  intro hclifford
  have htest : g.complementable v = true :=
    complementable_iff.mpr ⟨hv.1, ⟨p, hp, hclifford⟩, fun l => h.link_of_isInterior hv⟩
  have hplaces : g.vertices.filter g.complementable = [] := Except.ok.inj h.localComplement
  have hmem : v ∈ g.vertices.filter g.complementable :=
    List.mem_filter.mpr ⟨mem_vertices.mpr (contains_of_kind? hv.1), htest⟩
  rw [hplaces] at hmem
  cases hmem

theorem not_isPauli_and_isPauli (h : g.Simplified) (hu : g.IsInterior u) (hv : g.IsInterior v)
    (huv : g.connected u v = true) (hp : g.phase? u = some p) (hq : g.phase? v = some q) :
    ¬ (p.isPauli = true ∧ q.isPauli = true) := by
  -- Places are listed with the smaller end first.
  wlog hle : u ≤ v generalizing u v p q
  · have hvu : g.connected v u = true := by
      rw [connected, h.toConsistent.edgeKind?_comm]
      exact huv
    intro hpauli
    exact this hv hu hvu hq hp (Nat.le_of_not_le hle) hpauli.symm
  rintro ⟨hpauli, hqauli⟩
  obtain ⟨e, he⟩ := Option.isSome_iff_exists.mp huv
  obtain rfl := h.spider_edge hu.1 hv.1 he
  have htest : g.pivotable u v = true :=
    pivotable_iff.mpr ⟨⟨hu.1, hv.1, he⟩, ⟨p, hp, hpauli⟩, ⟨q, hq, hqauli⟩,
      fun l => h.link_of_isInterior hu, fun l => h.link_of_isInterior hv⟩
  have hmem := mem_edgesWhere_of_edgeKind? h.toConsistent he hle htest
  have hplaces : g.edgesWhere g.pivotable = [] := Except.ok.inj h.pivot
  rw [hplaces] at hmem
  cases hmem

end Simplified

/-! ## The normal form -/

/-- One batch of a rule of the strategy turns `g` into `D`. -/
inductive Batch (g D : Diagram) : Prop
  | fusion (h : (Rule.fusion.once g).outcome = .ok (some D))
  | identity (h : (Rule.identity.once g).outcome = .ok (some D))
  | localComplement (h : (Rule.localComplement.once g).outcome = .ok (some D))
  | pivot (h : (Rule.pivot.once g).outcome = .ok (some D))

theorem Batch.shrinks {D : Diagram} (hg : g.WellFormed) (h : g.Batch D) : Shrinks g D := by
  cases h with
  | fusion h => exact (Rule.once_ends fusion_progress hg).of_eq_ok h
  | identity h => exact (Rule.once_ends identity_progress hg).of_eq_ok h
  | localComplement h => exact (Rule.once_ends localComplement_progress hg).of_eq_ok h
  | pivot h => exact (Rule.once_ends pivot_progress hg).of_eq_ok h

/-- Every batch that changes a well-formed diagram leaves a well-formed one with fewer vertices.
Unless a machine integer overflows, simplification ends in a diagram without places for any rule:
green, with Hadamard edges between spiders, without an interior quarter turn and without interior
neighbours that both have Pauli phases. A second simplification reports no change and returns the
same diagram. -/
theorem simplify_normalises (hg : g.WellFormed) :
    (∀ D, g.Batch D → D.WellFormed ∧ D.vertexCount < g.vertexCount) ∧
    ((∃ changed g', g.simplify.outcome = .ok (changed, g') ∧ g'.Simplified ∧
      (∀ v p, g'.IsInterior v → g'.phase? v = some p →
        p ≠ Phase.quarter ∧ p ≠ Phase.negQuarter) ∧
      (∀ u v p q, g'.IsInterior u → g'.IsInterior v → g'.connected u v = true →
        g'.phase? u = some p → g'.phase? v = some q →
        ¬ ((p = Phase.zero ∨ p = Phase.one) ∧ (q = Phase.zero ∨ q = Phase.one))) ∧
      g'.simplify.outcome = .ok (false, g')) ∨
    g.simplify.outcome = .error .overflow) := by
  constructor
  · intro D hD
    have hshrinks := hD.shrinks hg
    exact ⟨hshrinks.1, hshrinks.2.2⟩
  · rcases (simplify_simplified hg).ok_or_error with ⟨⟨changed, g'⟩, hok, h⟩ | herror
    · refine .inl ⟨changed, g', hok, h, fun v p hv hp => ?_, ?_, h.simplify_eq⟩
      · simpa [Phase.isProperClifford] using h.isProperClifford_eq_false hv hp
      · intro u v p q hu hv huv hp hq
        simpa [Phase.isPauli, Phase.isZero, Phase.isOne] using
          h.not_isPauli_and_isPauli hu hv huv hp hq
    · exact .inr herror

theorem simplify_normalises_braid : braid.WellFormed ∧
    ∃ changed g', braid.simplify.outcome = .ok (changed, g') ∧ g'.Simplified ∧
      g'.simplify.outcome = .ok (false, g') := by
  have hwf : braid.WellFormed := by decide +kernel
  have hok : braid.simplify.outcome.toOption.isSome = true := by decide +kernel
  refine ⟨hwf, ?_⟩
  rcases (simplify_normalises hwf).2 with ⟨changed, g', hrun, h, -, -, hagain⟩ | hoverflow
  · exact ⟨changed, g', hrun, h, hagain⟩
  · rw [hoverflow] at hok
    exact absurd hok (by decide)

end ZX.Diagram
