import Mathlib
import ZX.Extraction.Basic
import ZX.Proofs.Cleanup
import ZX.Proofs.Extraction.Permutation
import ZX.Proofs.Simplification

/-!
# The whole extraction

Extraction normalises the diagram, peels the outputs, runs its rounds, resolves the inputs and
cleans the circuit. Put together, the statements about these stages say how an extraction ends:
with a circuit for the diagram if the normalised diagram has a flow, and otherwise stalled, unless
two outputs clash or a number leaves its range.
-/
namespace ZX

open Finset State Workspace

namespace Diagram

variable {g : Diagram} {options : ExtractionOptions} {n : ℕ} {A : List ℕ} {w : Workspace}

/-! ## The last stages -/

/-- The tables of the last stages can be stored: one entry for every two of the `k` wires while the
inputs are resolved, and 16 bytes for every one of the `n` qubits while the circuit is cleaned. -/
def TablesFit (k n : ℕ) (options : ExtractionOptions) : Prop :=
  (options.upToPermutation = false → k * k < 2 ^ 63) ∧ (options.cleanup = true → n * 16 < 2 ^ 63)

/-- A table of the last stages is too large. -/
def IsTooLarge (g : Diagram) (n : ℕ) (options : ExtractionOptions) (e : Halt) : Prop :=
  e = .fault .tooLarge ∧ g.HasFlow ∧ ¬TablesFit g.outputs.length n options

/-- The inputs are resolved, unless that is left out on request. -/
structure Resolved (g : Diagram) (n : ℕ) (options : ExtractionOptions) (w : Workspace) : Prop where
  flow : g.HasFlow
  fits : options.upToPermutation = false → g.outputs.length * g.outputs.length < 2 ^ 63
  width_eq : w.circuit.width = n
  scalar_eq : w.diagram.scalar = g.scalar
  tidy : ∀ gate ∈ w.circuit.gates, gate.qubits.Nodup ∧ ∀ q ∈ gate.qubits, q < g.outputs.length
  exists_eq : options.upToPermutation = false → ∃ r : ℝ, 0 < r ∧
    ∀ x y, g.amplitude x y = r * (g.scalar.value * ∏ v ∈ g.isolated, (1 + g.turn v)) *
      actAll w.circuit.gates (ket g.outputs.length x) y

theorem Resolved.of_reached (h : Reached g n ∅ A [] w) (hg : g.Normal)
    (hk : g.inputs.length = g.outputs.length) :
    Ends (if options.upToPermutation then pure w else w.resolveInputs).outcome
      (Resolved g n options) (IsTooLarge g n options) := by
  have hflow := hasFlow_of_frees hg.toWellFormed h.freed
  cases hopt : options.upToPermutation with
  | true =>
      refine Ends.ok_iff.mpr ⟨hflow, fun hc => ?_, h.width_eq, h.laid.scalar_eq, h.leads.tidy,
        fun hc => ?_⟩ <;>
      · rw [hopt] at hc
        cases hc
  | false =>
      have hinputs := resolveInputs_reached h hg hk
      split at hinputs
      case isFalse hsize =>
        refine ⟨fun r hr => ?_, fun e he => ?_⟩
        · rw [if_neg Bool.false_ne_true, hinputs] at hr
          cases hr
        · rw [if_neg Bool.false_ne_true, hinputs] at he
          exact ⟨(Except.error.inj he).symm, hflow, fun hfit => hsize (hfit.1 hopt)⟩
      case isTrue hsize =>
        obtain ⟨gates, hok, htidy, heq⟩ := hinputs
        refine Ends.of_exists_ok ⟨_, hok, hflow, fun _ => hsize, h.width_eq, h.laid.scalar_eq,
          fun gate hgate => ?_, fun _ => ?_⟩
        · obtain hgate | hgate := List.mem_append.mp hgate
          · exact htidy gate hgate
          · exact h.leads.tidy gate hgate
        · obtain ⟨r, hr, hleads⟩ := h.leads.exists_eq
          refine ⟨r, hr, fun x y => ?_⟩
          rw [← residue_outputs hg.toWellFormed, hleads, heq,
            actAll_smul fun gate hgate => (h.leads.tidy gate hgate).1]
          show (r : ℂ) * (_ * _) = _ * actAll (gates ++ w.circuit.gates) _ y
          rw [actAll_append]
          ring

/-- What is known about an extracted circuit; `g` is the normalised diagram and `n` the width. -/
structure Extracted (g : Diagram) (n : ℕ) (options : ExtractionOptions) (c : Circuit) : Prop where
  flow : g.HasFlow
  fits : TablesFit g.outputs.length n options
  width_eq : c.width = n
  tidy : ∀ gate ∈ c.gates, gate.qubits.Nodup ∧ ∀ q ∈ gate.qubits, q < g.outputs.length
  exists_eq : options.upToPermutation = false → ∃ r : ℝ, 0 < r ∧ ∀ x y, g.amplitude x y =
    r * (∏ v ∈ g.isolated, (1 + g.turn v)) * c.amplitude g.outputs.length x y

/-- The phase of the scalar becomes the global phase, and its magnitude is dropped. -/
theorem Resolved.extracted {c : Circuit} (h : Resolved g n options w) (hc : w.circuit.Trims c)
    (hfits : options.cleanup = true → n * 16 < 2 ^ 63) :
    Extracted g n options { c with globalPhase := w.diagram.scalar.phase } where
  flow := h.flow
  fits := ⟨h.fits, hfits⟩
  width_eq := hc.width_eq.trans h.width_eq
  tidy gate hgate := h.tidy gate (hc.subset gate hgate)
  exists_eq hopt := by
    obtain ⟨r, hr, heq⟩ := h.exists_eq hopt
    have hpos : 0 < r * √2 ^ g.scalar.sqrt2Pow := mul_pos hr (zpow_pos (by positivity) _)
    refine ⟨_, hpos, fun x y => ?_⟩
    rw [heq, Circuit.amplitude, Circuit.act, h.scalar_eq, hc.act_eq, Scalar.value, Pi.smul_apply,
      smul_eq_mul]
    push_cast
    ring

/-- The ways in which an extraction can stop once the frontier stands. -/
def Halts (g : Diagram) (n : ℕ) (options : ExtractionOptions) (e : Halt) : Prop :=
  IsStall g options.maxRounds e ∨ IsTooLarge g n options e

theorem Resolved.cleanup_ends (h : Resolved g n options w) :
    Ends (if options.cleanup then liftM w.circuit.cleanup else pure (false, w.circuit) :
        Extraction (Bool × Circuit)).outcome
      (fun r => w.circuit.Trims r.2 ∧ (options.cleanup = true → n * 16 < 2 ^ 63))
      (IsTooLarge g n options) := by
  cases hopt : options.cleanup with
  | false => exact Ends.ok_iff.mpr ⟨.refl _, fun hc => by cases hc⟩
  | true =>
      have hclean := w.circuit.cleanup_ends fun gate hgate => (h.tidy gate hgate).1
      rw [h.width_eq] at hclean
      refine Ends.mapError (hclean.mono (fun r hr => ⟨hr.1, fun _ => hr.2⟩) fun e he => ?_)
      exact ⟨congrArg Halt.fault he.1, h.flow, fun hfit => absurd (hfit.2 hopt) (not_lt.mpr he.2)⟩

/-! ## From a diagram to a circuit -/

theorem extract_eq (hk : g.inputs.length = g.outputs.length)
    (hwidth : options.width = 0 ∨ g.outputs.length ≤ options.width) :
    g.extract options = (g.extractionStart options).prepare >>= Workspace.finish options := by
  have hfits : ¬g.extractionWidth options < g.outputs.length := by
    unfold extractionWidth
    split <;> omega
  rw [extract, if_neg (not_not.mpr hk), if_neg hfits]

/-- A circuit with fewer qubits than outputs is refused before anything is done. -/
theorem extract_tooNarrow (hk : g.inputs.length = g.outputs.length)
    (hnarrow : ¬(options.width = 0 ∨ g.outputs.length ≤ options.width)) :
    (g.extract options).outcome = .error (.failure
      (.misfit (.tooNarrow g.outputs.length options.width)) (g.extractionStart options)) := by
  have hwidth : g.extractionWidth options = options.width := if_neg fun h => hnarrow (.inl h)
  rw [extract, if_neg (not_not.mpr hk), hwidth, if_pos (by omega)]
  rfl

theorem width_of_extract_eq_ok {r : Circuit × Diagram} (hk : g.inputs.length = g.outputs.length)
    (h : (g.extract options).outcome = .ok r) :
    options.width = 0 ∨ g.outputs.length ≤ options.width := by
  by_contra hnarrow
  rw [extract_tooNarrow hk hnarrow] at h
  cases h

theorem close_ends (hg : g.Normal) (hk : g.inputs.length = g.outputs.length)
    (h : Reached g n ∅ A [] w) (count : ℕ) :
    Ends (w.close options count).outcome (fun r => Extracted g n options r.1)
      (IsTooLarge g n options) := by
  refine Ends.run_ite (Resolved.of_reached h hg hk) ?_
  intro w₁ h₁
  refine Ends.run_ite h₁.cleanup_ends ?_
  rintro ⟨_, c⟩ ⟨htrims, hfits⟩
  exact Ends.run_emit (Ends.ok_iff.mpr (h₁.extracted htrims hfits))

/-- There are enough rounds for two on each vertex that is left. -/
theorem card_rest_le (h : Reached g n (g.core \ g.fringe) A [] w) :
    (g.core \ g.fringe).card ≤ w.diagram.vertexCount := by
  rw [h.laid.consistent.vertexCount_eq]
  exact card_le_card fun v hv => mem_support.mpr ((h.laid.contains_iff v).mpr (.inr (.inl hv)))

theorem finish_ends (hg : g.Normal) (hk : g.inputs.length = g.outputs.length)
    (h : Reached g n (g.core \ g.fringe) A [] w) (hF : w.frontier = A.zipIdx.map Prod.swap)
    (hfringe : ∀ v ∈ g.fringe, v ∈ A) :
    Ends (w.finish options).outcome (fun r => Extracted g n options r.1)
      (Halts g n options) := by
  have hcard := card_rest_le h
  have hfuel : 2 * (g.core \ g.fringe).card + 2 ≤ 2 * w.diagram.vertexCount + 3 := by omega
  refine Ends.run_bind ((rounds_ends hg h (h.seen hg.toWellFormed hF hfringe) hfuel).mono
    (fun _ hr => hr) fun _ he => .inl he) ?_
  rintro ⟨count, w₁⟩ ⟨A₁, h₁⟩
  exact (close_ends hg hk h₁ count).mono (fun _ hr => hr) fun _ he => .inr he

/-- An extraction of a diagram that can be normalised. -/
theorem extract_ends (hg : g.WellFormed) (hk : g.inputs.length = g.outputs.length)
    (hwidth : options.width = 0 ∨ g.outputs.length ≤ options.width)
    (hw : (g.extractionStart options).normaliseInputs.outcome = .ok w) :
    Ends (g.extract options).outcome
      (fun r => Extracted w.diagram (g.extractionWidth options) options r.1) fun e =>
        (g.extractionStart options).prepare.outcome = .error e ∧ IsMisfit e ∧ w.diagram.Clashes ∨
          Halts w.diagram (g.extractionWidth options) options e := by
  have hnormal := (normaliseInputs_ends hg).of_eq_ok hw
  have hwn : w.circuit.width = g.extractionWidth options := congrArg Circuit.width hnormal.circuit_eq
  have hprep := prepare_ends hnormal hw (congrArg Circuit.gates hnormal.circuit_eq)
  rw [extract_eq hk hwidth, Run.outcome_bind]
  cases hout : (g.extractionStart options).prepare.outcome with
  | error e => exact Ends.error_iff.mpr (.inl ⟨rfl, hprep.2 e hout⟩)
  | ok w' =>
      obtain ⟨A, h, hF, hfringe⟩ := hprep.of_eq_ok hout
      rw [hwn] at h
      obtain ⟨hin, hout, -⟩ := hnormal.same
      have hk' : w.diagram.inputs.length = w.diagram.outputs.length := by
        rw [hin, hout]
        exact hk
      exact (finish_ends hnormal.normal hk' h hF hfringe).mono (fun _ hr => hr)
        fun _ he => .inr he

theorem exists_normalised {w' : Workspace}
    (h : (g.extractionStart options).prepare.outcome = .ok w') :
    ∃ w, (g.extractionStart options).normaliseInputs.outcome = .ok w := by
  obtain ⟨w, hw, -⟩ := Run.exists_of_bind_eq_ok h
  exact ⟨w, hw⟩

theorem exists_prepared {r : Circuit × Diagram} (hk : g.inputs.length = g.outputs.length)
    (hwidth : options.width = 0 ∨ g.outputs.length ≤ options.width)
    (h : (g.extract options).outcome = .ok r) :
    ∃ w, (g.extractionStart options).prepare.outcome = .ok w := by
  rw [extract_eq hk hwidth] at h
  obtain ⟨w, hw, -⟩ := Run.exists_of_bind_eq_ok h
  exact ⟨w, hw⟩

/-- Once the frontier stands, the outputs do not clash. -/
theorem extract_prepared {w' : Workspace} (hg : g.WellFormed)
    (hk : g.inputs.length = g.outputs.length)
    (hwidth : options.width = 0 ∨ g.outputs.length ≤ options.width)
    (hw : (g.extractionStart options).normaliseInputs.outcome = .ok w)
    (hprep : (g.extractionStart options).prepare.outcome = .ok w') :
    Ends (g.extract options).outcome
      (fun r => Extracted w.diagram (g.extractionWidth options) options r.1)
      (Halts w.diagram (g.extractionWidth options) options) := by
  have hends := extract_ends hg hk hwidth hw
  refine ⟨hends.1, fun e he => (hends.2 e he).resolve_left fun hmisfit => ?_⟩
  rw [hprep] at hmisfit
  cases hmisfit.1

theorem outputs_normalised (hg : g.WellFormed)
    (hw : (g.extractionStart options).normaliseInputs.outcome = .ok w) :
    w.diagram.outputs = g.outputs :=
  ((normaliseInputs_ends hg).of_eq_ok hw).same.2.1

/-- With a flow the rounds come to their end, and only the last stages can fail. -/
theorem extract_of_hasFlow {w' : Workspace} (hg : g.WellFormed)
    (hk : g.inputs.length = g.outputs.length)
    (hwidth : options.width = 0 ∨ g.outputs.length ≤ options.width)
    (hcap : options.maxRounds = none)
    (hw : (g.extractionStart options).normaliseInputs.outcome = .ok w)
    (hprep : (g.extractionStart options).prepare.outcome = .ok w') (hflow : w.diagram.HasFlow) :
    TablesFit g.outputs.length (g.extractionWidth options) options ∧
        (∃ r, (g.extract options).outcome = .ok r) ∨
      ¬TablesFit g.outputs.length (g.extractionWidth options) options ∧
        (g.extract options).outcome = .error (.fault .tooLarge) := by
  have hends := extract_prepared hg hk hwidth hw hprep
  rw [← outputs_normalised hg hw]
  cases hout : (g.extract options).outcome with
  | ok r => exact .inl ⟨(hends.of_eq_ok hout).fits, r, rfl⟩
  | error e =>
      obtain ⟨-, hno⟩ | ⟨rfl, -, hlarge⟩ := hends.2 e hout
      · exact absurd hflow (hno hcap)
      · exact .inr ⟨hlarge, rfl⟩

/-! ## Soundness and completeness -/

/-- An extracted circuit acts on the qubits of the outputs only, and there it is the map of the
diagram, up to a positive factor and the factors of the spiders that are isolated after
normalisation. -/
theorem extract_sound {c : Circuit} {left : Diagram} (hg : g.WellFormed)
    (hk : g.inputs.length = g.outputs.length)
    (hwidth : options.width = 0 ∨ g.outputs.length ≤ options.width)
    (hperm : options.upToPermutation = false)
    (h : (g.extract options).outcome = .ok (c, left)) :
    (∀ gate ∈ c.gates, ∀ q ∈ gate.qubits, q < g.outputs.length) ∧
    ∃ w, (g.extractionStart options).normaliseInputs.outcome = .ok w ∧
      ∃ r : ℝ, 0 < r ∧ ∀ x y, g.amplitude x y =
        r * (∏ v ∈ w.diagram.isolated, (1 + w.diagram.turn v)) *
          c.amplitude g.outputs.length x y := by
  obtain ⟨w₁, hprep⟩ := exists_prepared hk hwidth h
  obtain ⟨w, hw⟩ := exists_normalised hprep
  have hamp : w.diagram.amplitude = g.amplitude :=
    ((normaliseInputs_ends hg).of_eq_ok hw).same.2.2
  have hc := (extract_ends hg hk hwidth hw).of_eq_ok h
  have heq := hc.exists_eq hperm
  have htidy := hc.tidy
  rw [outputs_normalised hg hw] at heq htidy
  rw [hamp] at heq
  exact ⟨fun gate hgate => (htidy gate hgate).2, w, hw, heq⟩

/-- The flow of `braid`, in which every spider is corrected by one behind it. The input 0 is padded
by the spider 9. -/
theorem braid_hasFlow : ∃ w, (braid.extractionStart {}).normaliseInputs.outcome = .ok w ∧
    w.diagram.HasFlow := by
  let next (v : ℕ) : ℕ := [9, 3, 4, 6, 5, 0, 0, 0, 0, 2].getD v 0
  let place (v : ℕ) : ℕ := [0, 0, 2, 4, 3, 5, 5, 0, 0, 1].getD v 0
  have hline : ((braid.extractionStart {}).normaliseInputs.outcome.toOption.any fun w =>
      ∀ v ∈ w.diagram.core \ w.diagram.fringe,
        {next v} ⊆ w.diagram.core \ w.diagram.inputs.toFinset ∧ w.diagram.IsOdd {next v} v ∧
        (∀ u ∈ ({next v} : Finset ℕ), place v < place u) ∧
        ∀ u ∈ w.diagram.core, w.diagram.IsOdd {next v} u → u ≠ v → place v < place u) = true := by
    decide +kernel
  obtain ⟨w, hw, hline⟩ := exists_ok_of_any hline
  refine ⟨w, hw, fun v => {next v}, fun u v => place u < place v, ?_, of_decide_eq_true hline⟩
  exact { irrefl := fun _ => lt_irrefl _, trans := fun _ _ _ => lt_trans }

theorem braid_prepare : ∃ w, (braid.extractionStart {}).prepare.outcome = .ok w := by
  have hsome : ((braid.extractionStart {}).prepare.outcome.toOption.any fun _ => true) = true := by
    decide +kernel
  obtain ⟨w, hw, -⟩ := exists_ok_of_any hsome
  exact ⟨w, hw⟩

theorem braid_wellFormed : braid.WellFormed := by decide +kernel

theorem braid_extract : ∃ r, (braid.extract {}).outcome = .ok r := by
  obtain ⟨w, hw, hflow⟩ := braid_hasFlow
  obtain ⟨w', hprep⟩ := braid_prepare
  obtain ⟨-, hok⟩ | ⟨hlarge, -⟩ :=
    extract_of_hasFlow braid_wellFormed rfl (.inl rfl) rfl hw hprep hflow
  · exact hok
  · exact absurd ⟨by decide, by decide⟩ hlarge

theorem extract_sound_braid : ∃ c left w, (braid.extract {}).outcome = .ok (c, left) ∧
    (∀ gate ∈ c.gates, ∀ q ∈ gate.qubits, q < 2) ∧
    (braid.extractionStart {}).normaliseInputs.outcome = .ok w ∧
    ∃ r : ℝ, 0 < r ∧ ∀ x y, braid.amplitude x y =
      r * (∏ v ∈ w.diagram.isolated, (1 + w.diagram.turn v)) * c.amplitude 2 x y := by
  obtain ⟨⟨c, left⟩, hok⟩ := braid_extract
  obtain ⟨hgates, w, hw, heq⟩ := extract_sound braid_wellFormed rfl (.inl rfl) rfl hok
  exact ⟨c, left, w, hok, hgates, hw, heq⟩

/-- Once the frontier stands, an extraction without a cap on its rounds succeeds if and only if the
normalised diagram has a flow, and otherwise it stalls. There are two exceptions: a width that is
less than the number of the outputs, which is refused, and tables of the last stages that cannot be
stored. -/
theorem extract_complete {w' : Workspace} (hg : g.WellFormed)
    (hk : g.inputs.length = g.outputs.length) (hcap : options.maxRounds = none)
    (hprep : (g.extractionStart options).prepare.outcome = .ok w') :
    ∃ w, (g.extractionStart options).normaliseInputs.outcome = .ok w ∧
      ((∃ r, (g.extract options).outcome = .ok r) ↔ w.diagram.HasFlow ∧
        (options.width = 0 ∨ g.outputs.length ≤ options.width) ∧
        TablesFit g.outputs.length (g.extractionWidth options) options) ∧
      (¬w.diagram.HasFlow → options.width = 0 ∨ g.outputs.length ≤ options.width →
        ∃ count left w'',
          (g.extract options).outcome = .error (.failure (.stalled count left) w'')) ∧
      (¬(options.width = 0 ∨ g.outputs.length ≤ options.width) →
        (g.extract options).outcome = .error (.failure
          (.misfit (.tooNarrow g.outputs.length options.width)) (g.extractionStart options))) ∧
      (w.diagram.HasFlow → options.width = 0 ∨ g.outputs.length ≤ options.width →
        ¬TablesFit g.outputs.length (g.extractionWidth options) options →
        (g.extract options).outcome = .error (.fault .tooLarge)) := by
  obtain ⟨w, hw⟩ := exists_normalised hprep
  refine ⟨w, hw, ⟨?_, ?_⟩, ?_, extract_tooNarrow hk, ?_⟩
  · rintro ⟨r, hr⟩
    have hwidth := width_of_extract_eq_ok hk hr
    have hc := (extract_prepared hg hk hwidth hw hprep).of_eq_ok hr
    exact ⟨hc.flow, hwidth, outputs_normalised hg hw ▸ hc.fits⟩
  · rintro ⟨hflow, hwidth, hfits⟩
    have hcases := extract_of_hasFlow hg hk hwidth hcap hw hprep hflow
    exact (hcases.resolve_right fun h => h.1 hfits).2
  · intro hno hwidth
    have hends := extract_prepared hg hk hwidth hw hprep
    cases hout : (g.extract options).outcome with
    | ok r => exact absurd (hends.of_eq_ok hout).flow hno
    | error e =>
        obtain ⟨⟨count, left, w'', he⟩, -⟩ | ⟨-, hflow, -⟩ := hends.2 e hout
        · exact ⟨count, left, w'', congrArg Except.error he⟩
        · exact absurd hflow hno
  · intro hflow hwidth hlarge
    have hcases := extract_of_hasFlow hg hk hwidth hcap hw hprep hflow
    exact (hcases.resolve_left fun h => hlarge h.1).2

theorem extract_complete_braid : ∃ r, (braid.extract {}).outcome = .ok r := by
  obtain ⟨w, hw, hflow⟩ := braid_hasFlow
  obtain ⟨w', hprep⟩ := braid_prepare
  obtain ⟨w₁, hw₁, hiff, -⟩ := extract_complete braid_wellFormed rfl rfl hprep
  rw [hw] at hw₁
  rw [← Except.ok.inj hw₁] at hiff
  exact hiff.mpr ⟨hflow, .inl rfl, by decide, by decide⟩

theorem empty_hasFlow : empty.HasFlow := ⟨fun _ => ∅, (· < ·), inferInstance, by decide⟩

/-- A clean-up of `2^60` qubits would need a table of `2^64` bytes. -/
theorem extract_empty_wide :
    (empty.extract { width := 2 ^ 60 }).outcome = .error (.fault .tooLarge) := by
  have hcases := @extract_of_hasFlow empty { width := 2 ^ 60 } ⟨empty, _, []⟩ _ (by decide) rfl
    (.inr (by decide)) rfl rfl rfl empty_hasFlow
  exact (hcases.resolve_left fun h => absurd (h.1.2 rfl) (by decide)).2

/-- Two plain wires. -/
def strands : Diagram where
  slots := #[
    some ⟨⟨.boundary, Phase.zero, 0, 0⟩, [(2, .plain)]⟩,
    some ⟨⟨.boundary, Phase.zero, 1, 0⟩, [(3, .plain)]⟩,
    some ⟨⟨.boundary, Phase.zero, 0, 1⟩, [(0, .plain)]⟩,
    some ⟨⟨.boundary, Phase.zero, 1, 1⟩, [(1, .plain)]⟩]
  holes := []
  inputs := [0, 1]
  outputs := [2, 3]
  vertexCount := 4
  edgeCount := 2
  scalar := Scalar.one

/-- The spiders 4 and 5 that pad the inputs correct them. -/
theorem strands_hasFlow : ∃ w,
    (strands.extractionStart { width := 1 }).normaliseInputs.outcome = .ok w ∧
      w.diagram.HasFlow := by
  have hline : ((strands.extractionStart { width := 1 }).normaliseInputs.outcome.toOption.any
      fun w => ∀ v ∈ w.diagram.core \ w.diagram.fringe,
        {v + 4} ⊆ w.diagram.core \ w.diagram.inputs.toFinset ∧ w.diagram.IsOdd {v + 4} v ∧
        (∀ u ∈ ({v + 4} : Finset ℕ), v < u) ∧
        ∀ u ∈ w.diagram.core, w.diagram.IsOdd {v + 4} u → u ≠ v → v < u) = true := by
    decide +kernel
  obtain ⟨w, hw, hline⟩ := exists_ok_of_any hline
  exact ⟨w, hw, fun v => {v + 4}, (· < ·), inferInstance, of_decide_eq_true hline⟩

/-- A flow is not enough: the table for `2^60` qubits is too large, and two wires do not fit on one
qubit. -/
theorem extract_incomplete_width :
    (empty.WellFormed ∧ empty.HasFlow ∧
      (∃ w, (empty.extractionStart { width := 2 ^ 60 }).prepare.outcome = .ok w) ∧
      ¬∃ r, (empty.extract { width := 2 ^ 60 }).outcome = .ok r) ∧
    strands.WellFormed ∧
      (∃ w, (strands.extractionStart { width := 1 }).normaliseInputs.outcome = .ok w ∧
        w.diagram.HasFlow) ∧
      (∃ w, (strands.extractionStart { width := 1 }).prepare.outcome = .ok w) ∧
      ¬∃ r, (strands.extract { width := 1 }).outcome = .ok r := by
  have hsome : ((strands.extractionStart { width := 1 }).prepare.outcome.toOption.any
      fun _ => true) = true := by
    decide +kernel
  obtain ⟨w, hw, -⟩ := exists_ok_of_any hsome
  refine ⟨⟨by decide, empty_hasFlow, ⟨_, rfl⟩, ?_⟩, by decide, strands_hasFlow, ⟨w, hw⟩, ?_⟩
  · rintro ⟨r, hr⟩
    rw [extract_empty_wide] at hr
    cases hr
  · rintro ⟨r, hr⟩
    exact absurd (width_of_extract_eq_ok rfl hr) (by decide)

end Diagram

end ZX
