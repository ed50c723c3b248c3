import Mathlib
import ZX.Circuit.Stats
import ZX.Proofs.Clifford.Drawing
import ZX.Proofs.Extraction.Stages

/-!
# What an extraction emits

Every stage of an extraction puts rotations, Hadamards, controlled nots and controlled phases on one
or two qubits in front of the circuit, and nothing else. A rotation takes its angle from a spider
that loses its phase at the same time. So the twisted spiders of the diagram and the rotations in the
circuit that are no Clifford gates, taken together, never become more.
-/
namespace ZX

open Finset

namespace Workspace

variable {w w' w'' : Workspace} {v q : ℕ} {p : Phase}

/-- The twists that are left in the diagram and those that stand in the circuit. -/
def load (w : Workspace) : ℕ := w.circuit.stats.nonClifford + w.diagram.nonCliffordCount

/-- A stage that emits native gates and twists nothing that was not twisted before. -/
structure Spends (w w' : Workspace) : Prop where
  native : (∀ gate ∈ w.circuit.gates, gate.IsNative) → ∀ gate ∈ w'.circuit.gates, gate.IsNative
  load_le : w'.load ≤ w.load

theorem Spends.refl (w : Workspace) : Spends w w := ⟨fun h => h, Nat.le_refl _⟩

theorem Spends.trans (h : Spends w w') (h' : Spends w' w'') : Spends w w'' :=
  ⟨fun hw => h'.native (h.native hw), h'.load_le.trans h.load_le⟩

/-- Native Clifford gates cost nothing. -/
theorem spends_of_clifford (gates : List Gate)
    (hgates : w'.circuit.gates = gates ++ w.circuit.gates)
    (hnative : ∀ gate ∈ gates, gate.IsNative ∧ Circuit.isCliffordGate gate = true)
    (hcount : w'.diagram.nonCliffordCount ≤ w.diagram.nonCliffordCount) : Spends w w' where
  native h gate hgate := by
    rw [hgates, List.mem_append] at hgate
    obtain hgate | hgate := hgate
    · exact (hnative gate hgate).1
    · exact h gate hgate
  load_le := by
    have hnew : gates.countP (fun gate => !Circuit.isCliffordGate gate) = 0 :=
      List.countP_eq_zero.mpr fun gate hgate => by simp [(hnative gate hgate).2]
    simp only [load, Circuit.stats, hgates, List.countP_append, hnew, Nat.zero_add]
    exact Nat.add_le_add_left hcount _

theorem spends_of_count (hgates : w'.circuit.gates = w.circuit.gates)
    (hcount : w'.diagram.nonCliffordCount ≤ w.diagram.nonCliffordCount) : Spends w w' :=
  spends_of_clifford [] hgates (by simp) hcount

theorem spends_emit {gate : Gate} (hnative : gate.IsNative)
    (hclifford : Circuit.isCliffordGate gate = true) : Spends w (w.emit gate) :=
  spends_of_clifford [gate] rfl (by simp [hnative, hclifford]) (Nat.le_refl _)

/-- A rotation pays for its angle with the phase of a spider. -/
theorem setPhase_spends (hkind : w.diagram.kind v = .ok .z) (hp : w.diagram.phase v = .ok p)
    (hgates : w'.circuit.gates = ⟨.zPhase, [q], p⟩ :: w.circuit.gates)
    (h : w.diagram.setPhase v Phase.zero = .ok w'.diagram) : Spends w w' where
  native hw gate hgate := by
    rw [hgates, List.mem_cons] at hgate
    obtain rfl | hgate := hgate
    · exact .rotation q p
    · exact hw gate hgate
  load_le := by
    have hsub : w'.diagram.twisted ⊆ w.diagram.twisted.erase v :=
      (Diagram.setPhase_twisted w.diagram v Phase.zero).of_eq_ok h
    have hcard := card_le_card hsub
    simp only [load, Circuit.stats, hgates, List.countP_cons, ← Diagram.card_twisted]
    cases hclifford : p.isClifford with
    | true =>
        have herase := card_erase_le (s := w.diagram.twisted) (a := v)
        simp [Circuit.isCliffordGate, hclifford]
        omega
    | false =>
        have hmem : v ∈ w.diagram.twisted := by
          obtain ⟨d, hd, rfl⟩ := Diagram.phase_eq_ok.mp hp
          obtain ⟨d', hd', hz⟩ := Diagram.kind_eq_ok.mp hkind
          cases hd.symm.trans hd'
          refine Diagram.mem_twisted.mpr ⟨d, hd, ?_⟩
          simp [VertexData.isTwisted, hz, hclifford]
        have herase := card_erase_add_one hmem
        simp [Circuit.isCliffordGate, hclifford]
        omega

theorem Stage.spends (h : Stage w w') : Spends w w' := by
  cases h with
  | emit hnative =>
      refine spends_emit hnative ?_
      generalize hgate : Gate.plain _ _ = gate at hnative
      cases hnative with
      | rotation q p =>
          cases hgate
          rfl
      | had q => rfl
      | cnot a b => rfl
      | cz a b => rfl
  | rotate q hz hp hg => exact setPhase_spends hz hp rfl hg
  | redraw hinherits => exact spends_of_count rfl (Diagram.KeepsTwists.of_inherits hinherits).count_le
  | pad qubit column =>
      refine spends_of_count rfl ?_
      rw [← Diagram.card_twisted, ← Diagram.card_twisted]
      exact card_le_card (Diagram.twisted_insertVertex_subset (.inr rfl))
  | place F => exact spends_of_count rfl (Nat.le_refl _)

theorem Stages.spends (h : Stages w w') : Spends w w' :=
  h.invariant (fun hstage hspends => hspends.trans hstage.spends) (.refl w)

theorem normaliseInputs_spends (w : Workspace) :
    Ends w.normaliseInputs.outcome (Spends w) fun _ => True := by
  refine Ends.run_bind (Ends.mapError (Diagram.toGreen_count w.diagram)) fun g₁ h₁ => ?_
  refine Ends.run_bind (Ends.mapError (Diagram.fuseAll_count g₁)) fun (_, g₂) h₂ => ?_
  have hcard := card_le_card h₁
  rw [Diagram.card_twisted, Diagram.card_twisted] at hcard
  have hdiagram : Spends w { w with diagram := g₂ } := spends_of_count rfl (h₂.trans hcard)
  exact (Stages.foldlM padInput_stages g₂.inputs _).imp fun _ h => hdiagram.trans h.spends

theorem prepare_spends (w : Workspace) :
    Ends w.prepare.outcome (Spends w) fun _ => True := by
  refine Ends.run_bind w.normaliseInputs_spends fun w₁ h₁ => ?_
  refine Ends.run_bind w₁.peelOutputs_stages fun w₂ h₂ => ?_
  exact Ends.mapError ((cutEdges_stages w₂.frontier w₂).imp fun _ h₃ =>
    h₁.trans (h₂.trans h₃).spends)

end Workspace

namespace Diagram

variable {w : Workspace}

theorem finish_spends (options : ExtractionOptions)
    (hw : ∀ gate ∈ w.circuit.gates, gate.IsNative) :
    Ends (w.finish options).outcome (fun r => (∀ gate ∈ r.1.gates, gate.IsNative) ∧
      r.1.stats.nonClifford ≤ w.load) fun _ => True := by
  refine (w.finish_stages options).imp fun r hr => ?_
  obtain ⟨w', hstages, hgates, -, -⟩ := hr
  refine ⟨fun gate hgate => hstages.spends.native hw gate (hgates.mem hgate), ?_⟩
  calc r.1.stats.nonClifford ≤ w'.circuit.stats.nonClifford := hgates.countP_le
    _ ≤ w'.load := Nat.le_add_right _ _
    _ ≤ w.load := hstages.spends.load_le

/-- All gates of an extracted circuit are native, and those that are no Clifford gates are at most
as many as the twisted spiders of the diagram. -/
theorem extract_spends (g : Diagram) (options : ExtractionOptions) :
    Ends (g.extract options).outcome (fun r => (∀ gate ∈ r.1.gates, gate.IsNative) ∧
      r.1.stats.nonClifford ≤ g.nonCliffordCount) fun _ => True := by
  by_cases hk : g.inputs.length = g.outputs.length
  · by_cases hwidth : options.width = 0 ∨ g.outputs.length ≤ options.width
    · rw [extract_eq hk hwidth]
      refine Ends.run_bind (Workspace.prepare_spends _) fun w h => ?_
      have hload : w.load ≤ g.nonCliffordCount := by
        refine h.load_le.trans (Nat.le_of_eq ?_)
        exact Nat.zero_add _
      refine (finish_spends options (h.native ?_)).imp fun r hr =>
        ⟨hr.1, hr.2.trans hload⟩
      exact fun gate hgate => absurd hgate List.not_mem_nil
    · rw [extract, if_neg (not_not.mpr hk), if_pos]
      · exact Ends.error_iff.mpr trivial
      · unfold extractionWidth
        split <;> omega
  · rw [extract, if_pos hk]
    refine Ends.run_emit (Ends.ok_iff.mpr ⟨fun gate hgate => ?_, Nat.zero_le _⟩)
    exact absurd hgate List.not_mem_nil

end Diagram

end ZX
