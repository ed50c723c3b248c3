import Mathlib
import ZX.Proofs.Drawing.Circuit
import ZX.Proofs.Extraction.Emission
import ZX.Proofs.Rigidity.Flow
import ZX.Proofs.Simplification

/-!
# From circuits to circuits

The diagram of a circuit is rigid, and it stays so while it is rewritten and normalised. A rigid
normal diagram has a flow, a spider for every output and no isolated spiders, so extraction never
stalls and never refuses it. The circuit that comes out is the one that went in up to a positive
factor, and that factor is one because both keep the energy of a state.

It has no more gates outside the Clifford group than the circuit that went in, because the diagrams
on the way have no more twisted spiders.
-/
namespace ZX

open Finset State

/-! ## Limits -/

/-- So many qubits or so many gates that a table may be too large. The order of the wires takes an
entry for every two of them, and the diagram has slots for its vertices and for the spiders that pad
the inputs. -/
def Circuit.Oversized (c : Circuit) : Prop :=
  2 ^ 63 ≤ c.width * c.width ∨ 2 ^ 56 < c.drawnSize + c.width

/-- The two ways in which the way of a circuit through its diagram can fail: phases or the scalar
outgrow their words, or tables outgrow the memory. -/
def Circuit.Outgrows (c : Circuit) (e : Halt) : Prop :=
  e = .fault .overflow ∨ e = .fault .tooLarge ∧ c.Oversized

/-! ## Unit energy -/

theorem actAll_local {gates : List Gate} {k : ℕ}
    (h : ∀ gate ∈ gates, gate.qubits.Nodup ∧ ∀ q ∈ gate.qubits, q < k) :
    Local (List.range k) (actAll gates) := by
  induction gates with
  | nil => exact .id
  | cons gate gates ih =>
      obtain ⟨hnodup, hlt⟩ := h gate List.mem_cons_self
      have hgate : Local (List.range k) gate.act :=
        (gate.act_local hnodup).mono fun q hq => List.mem_range.mpr (hlt q hq)
      exact (ih fun gate' hgate' => h gate' (List.mem_cons_of_mem gate hgate')).comp hgate

namespace Diagram

variable {g : Diagram} {c : Circuit} {options : ExtractionOptions}

/-- A rigid diagram and a circuit that agree up to a positive factor are equal. -/
theorem Rigid.amplitude_eq (hrigid : g.Rigid) {r : ℝ} (hr : 0 < r)
    (htidy : ∀ gate ∈ c.gates, gate.qubits.Nodup ∧ ∀ q ∈ gate.qubits, q < g.outputs.length)
    (heq : ∀ x y, g.amplitude x y = r * c.amplitude g.outputs.length x y) (x y : ℕ → Bool) :
    c.amplitude g.outputs.length x y = g.amplitude x y := by
  have hdiagram : energy (range g.outputs.length) (g.amplitude x) y = 1 := by
    obtain ⟨A, hA, himage⟩ := hrigid g.turn g.norm_turn
    have hamplitude : g.amplitude x = A (ket g.outputs.length x) := by
      rw [← himage]
      exact funext fun z => (g.image_turn x z).symm
    rw [hamplitude, hA.energy_eq fun q hq => by simpa using hq, energy_ket]
  have hcircuit : energy (range g.outputs.length) (c.amplitude g.outputs.length x) y = 1 := by
    show energy _ (c.globalPhase.unit • actAll c.gates (ket g.outputs.length x)) y = 1
    rw [energy_smul, Phase.norm_unit, (actAll_local htidy).energy_eq fun q hq => by simpa using hq,
      energy_ket, one_pow, Complex.ofReal_one, one_mul]
  have hscaled : g.amplitude x = (r : ℂ) • c.amplitude g.outputs.length x :=
    funext fun z => heq x z
  rw [hscaled, energy_smul, hcircuit, mul_one, Complex.ofReal_eq_one, Complex.norm_real,
    Real.norm_of_nonneg hr.le, pow_eq_one_iff_of_nonneg hr.le two_ne_zero] at hdiagram
  rw [heq, hdiagram, Complex.ofReal_one, one_mul]

/-! ## Rigid diagrams are extracted -/

theorem Rigid.of_normalised {w w' : Workspace} (hrigid : w.diagram.Rigid)
    (hk : w.diagram.inputs.length = w.diagram.outputs.length) (h : Workspace.Normalised w w') :
    w'.diagram.Rigid := by
  obtain ⟨g, hrewrites, hpads⟩ := h.exists_padded
  refine (hrigid.of_rewrites hrewrites).of_pads hpads ?_
  rw [hrewrites.inputs_eq, hrewrites.outputs_eq]
  exact hk

/-- Rules turn a diagram of a circuit into another diagram of it. -/
theorem Realises.of_rewrites {g' : Diagram} (h : g.Realises c) (hg' : g'.WellFormed)
    (hrewrites : Rewrites g g') : g'.Realises c where
  wellFormed := hg'
  length_inputs := by rw [hrewrites.inputs_eq, h.length_inputs]
  length_outputs := by rw [hrewrites.outputs_eq, h.length_outputs]
  amplitude_eq x y := by rw [hrewrites.amplitude_eq, h.amplitude_eq]
  rigid := h.rigid.of_rewrites hrewrites
  vertexCount_le :=
    (hrewrites.vertexCount_le h.wellFormed.toConsistent hg'.toConsistent).trans h.vertexCount_le

theorem ok_or_outgrows {α : Type} {x : Except Halt α} {P : α → Prop} (h : Ends x P c.Outgrows) :
    (∃ a, x = .ok a ∧ P a) ∨ x = .error (.fault .overflow) ∨
      x = .error (.fault .tooLarge) ∧ c.Oversized := by
  cases x with
  | ok a => exact .inl ⟨a, rfl, Ends.ok_iff.mp h⟩
  | error e =>
      rcases Ends.error_iff.mp h with rfl | ⟨rfl, hlarge⟩
      · exact .inr (.inl rfl)
      · exact .inr (.inr ⟨rfl, hlarge⟩)

theorem tablesFit_of_sq_lt {n : ℕ} (h : n * n < 2 ^ 63) : TablesFit n n options := by
  refine ⟨fun _ => h, fun _ => ?_⟩
  by_contra hwide
  have := Nat.mul_le_mul (show 2 ^ 59 ≤ n by omega) (show 2 ^ 59 ≤ n by omega)
  omega

section

variable (hwidth : options.width = 0 ∨ options.width = c.width)
  (hcap : options.maxRounds = none) (hperm : options.upToPermutation = false)

include hwidth hcap hperm

/-- Once its diagram is normalised, a circuit is extracted exactly, unless there is no room for a
table with an entry for every two qubits. -/
theorem Realises.extract_normalised {w : Workspace} (h : g.Realises c)
    (hw : (g.extractionStart options).normaliseInputs.outcome = .ok w) :
    Ends (g.extract options).outcome
      (fun r => r.1.width = c.width ∧
        ∀ x y, r.1.amplitude c.width x y = c.amplitude c.width x y)
      (fun e => e = .fault .tooLarge ∧ 2 ^ 63 ≤ c.width * c.width) := by
  have hk : g.inputs.length = g.outputs.length := h.length_inputs.trans h.length_outputs.symm
  have hn : g.extractionWidth options = c.width := by
    rw [extractionWidth, h.length_outputs]
    split <;> omega
  have hnormal := (Workspace.normaliseInputs_ends h.wellFormed).of_eq_ok hw
  obtain ⟨hin, hout, hamplitude⟩ := hnormal.same
  have hk' : w.diagram.inputs.length = w.diagram.outputs.length := by
    rw [hin, hout]
    exact hk
  have htaut := (h.rigid.of_normalised hk hnormal).taut hnormal.normal hk'
  have hends := Diagram.extract_ends h.wellFormed hk
    (hwidth.imp_right fun hc => (h.length_outputs.trans hc.symm).le) hw
  rw [hn] at hends
  refine hends.mono (fun r hr => ⟨hr.width_eq, fun x y => ?_⟩) ?_
  · have htidy := hr.tidy
    have hexact := hr.exists_eq hperm
    rw [htaut.isolated_eq hnormal.normal.toConsistent, prod_empty, hout, hamplitude] at hexact
    rw [hout] at htidy
    obtain ⟨r', hpos, heq⟩ := hexact
    rw [← h.amplitude_eq, ← h.length_outputs]
    exact h.rigid.amplitude_eq hpos htidy (fun x y => (heq x y).trans (by rw [mul_one]; rfl)) x y
  · intro e he
    rcases he with ⟨-, -, hclash⟩ | ⟨⟨-, hno⟩ | ⟨he, -, hlarge⟩⟩
    · exact absurd hclash (htaut.not_clashes hnormal.normal hk')
    · exact absurd (htaut.hasFlow hnormal.normal.toWellFormed hk') (hno hcap)
    · rw [outputs_normalised h.wellFormed hw, h.length_outputs] at hlarge
      exact ⟨he, not_lt.mp fun hlt => hlarge (tablesFit_of_sq_lt hlt)⟩

theorem Realises.extract_ends (h : g.Realises c) :
    Ends (g.extract options).outcome
      (fun r => r.1.width = c.width ∧
        ∀ x y, r.1.amplitude c.width x y = c.amplitude c.width x y)
      c.Outgrows := by
  cases hout : (g.extractionStart options).normaliseInputs.outcome with
  | error e =>
      have hprepare : (g.extractionStart options).prepare.outcome = .error e := by
        rw [Workspace.prepare, Run.outcome_bind, hout]
        rfl
      rw [extract_eq (h.length_inputs.trans h.length_outputs.symm)
        (hwidth.imp_right fun hc => (h.length_outputs.trans hc.symm).le), Run.outcome_bind, hprepare]
      refine Ends.error_iff.mpr ?_
      refine ((Workspace.normaliseInputs_ends h.wellFormed).2 e hout).imp_right ?_
      rintro ⟨he, hcrowded⟩
      refine ⟨he, .inr (hcrowded.trans_le ?_)⟩
      exact Nat.add_le_add h.vertexCount_le h.length_inputs.le
  | ok w =>
      exact (h.extract_normalised hwidth hcap hperm hout).mono (fun _ hr => hr) fun _ he =>
        .inr ⟨he.1, .inl he.2⟩

end

end Diagram

/-! ## Circuits -/

namespace Circuit

open Diagram

theorem toDiagram_outgrows (c : Circuit) (hfits : ∀ gate ∈ c.gates, gate.Fits c.width) :
    Ends (liftM c.toDiagram : Extraction Diagram).outcome (fun g => g.Realises c) c.Outgrows := by
  rw [outcome_lift_except]
  refine Ends.mapError ((toDiagram_ends c hfits).mono (fun _ hg => hg.toRealises) ?_)
  rintro f (⟨rfl, -⟩ | ⟨rfl, hlarge⟩)
  · exact .inl rfl
  · exact .inr ⟨rfl, .inr (by omega)⟩

/-- Without simplification a circuit comes back, unless its phases outgrow their words or its tables
outgrow the memory. -/
theorem roundTrip_exact (c : Circuit) (hfits : ∀ gate ∈ c.gates, gate.Fits c.width) :
    (∃ c', c.roundTrip.outcome = .ok c' ∧ c'.width = c.width ∧
      ∀ x y, c'.amplitude c.width x y = c.amplitude c.width x y) ∨
    c.roundTrip.outcome = .error (.fault .overflow) ∨
    c.roundTrip.outcome = .error (.fault .tooLarge) ∧ c.Oversized := by
  refine ok_or_outgrows ?_
  refine Ends.run_bind (c.toDiagram_outgrows hfits) fun g hg => ?_
  refine Ends.run_bind (hg.extract_ends (.inl rfl) rfl rfl) fun r hr => ?_
  exact Ends.ok_iff.mpr hr

/-- The phases of `carry` fit their words until its diagram is normalised. -/
theorem carry_roundTrip : ∃ c', carry.roundTrip.outcome = .ok c' := by
  have hfits : (carry.toDiagram.toOption.any fun g =>
      (g.extractionStart {}).normaliseInputs.outcome.toOption.any fun _ => true) = true := by
    decide +kernel
  obtain ⟨g, hok, hfits⟩ := exists_ok_of_any hfits
  obtain ⟨w, hw, -⟩ := exists_ok_of_any hfits
  have hg := ((toDiagram_ends carry (by decide)).of_eq_ok hok).toRealises
  obtain ⟨r, hr, -⟩ := ((hg.extract_normalised (.inl rfl) rfl rfl hw).mono (fun _ h => h)
    fun e he => absurd he.2 (by decide)).exists_ok
  refine ⟨r.1, ?_⟩
  rw [roundTrip, Run.outcome_bind, outcome_lift_except, hok]
  show (g.extract {} >>= fun r => pure r.1).outcome = _
  rw [Run.outcome_bind, hr]
  rfl

theorem roundTrip_exact_carry : ∃ c', carry.roundTrip.outcome = .ok c' ∧ c'.width = 3 ∧
    ∀ x y, c'.amplitude 3 x y = carry.amplitude 3 x y := by
  obtain ⟨c, hok⟩ := carry_roundTrip
  rcases roundTrip_exact carry (by decide) with ⟨c', hc', hwidth, hexact⟩ | hover | ⟨hlarge, -⟩
  · exact ⟨c', hc', hwidth, hexact⟩
  · rw [hok] at hover
    cases hover
  · rw [hok] at hlarge
    cases hlarge

/-- The ends of `2^60` wires would need `2^61` slots. -/
theorem roundTrip_fails_wide : (∀ gate ∈ (empty (2 ^ 60)).gates, gate.Fits (2 ^ 60)) ∧
    (empty (2 ^ 60)).roundTrip.outcome = .error (.fault .tooLarge) := by
  refine ⟨by decide, ?_⟩
  rw [roundTrip, Run.outcome_bind, outcome_lift_except, toDiagram_empty_tooLarge (by decide)]
  rfl

/-- A simplified circuit is never stuck: whatever the rules did to its diagram, a circuit of the same
width with the same matrix is extracted, under the conditions of `roundTrip_exact`. -/
theorem optimise_exact (c : Circuit) (hfits : ∀ gate ∈ c.gates, gate.Fits c.width) :
    (∃ c', c.optimise.outcome = .ok c' ∧ c'.width = c.width ∧
      ∀ x y, c'.amplitude c.width x y = c.amplitude c.width x y) ∨
    c.optimise.outcome = .error (.fault .overflow) ∨
    c.optimise.outcome = .error (.fault .tooLarge) ∧ c.Oversized := by
  refine ok_or_outgrows ?_
  refine Ends.run_bind (c.toDiagram_outgrows hfits) fun g hg => ?_
  refine Ends.run_bind (P := fun r => r.2.WellFormed ∧ Rewrites g r.2) ?_ fun r hr => ?_
  · rw [outcome_lift_run]
    exact Ends.mapError ((simplify_rewrites hg.wellFormed).mono (fun _ h => h) fun e he =>
      .inl (congrArg Halt.fault he))
  · have hg' := hg.of_rewrites hr.1 hr.2
    refine Ends.run_bind (hg'.extract_ends (.inr rfl) rfl rfl) fun r' hr' => ?_
    exact Ends.ok_iff.mpr hr'

theorem carry_optimise : ∃ c', carry.optimise.outcome = .ok c' := by
  have hfits : (carry.toDiagram.toOption.any fun g => g.simplify.outcome.toOption.any fun s =>
      (s.2.extractionStart { width := 3 }).normaliseInputs.outcome.toOption.any fun _ => true) =
        true := by
    decide +kernel
  obtain ⟨g, hok, hfits⟩ := exists_ok_of_any hfits
  obtain ⟨s, hs, hfits⟩ := exists_ok_of_any hfits
  obtain ⟨w, hw, -⟩ := exists_ok_of_any hfits
  have hg := ((toDiagram_ends carry (by decide)).of_eq_ok hok).toRealises
  obtain ⟨hwf, hrewrites⟩ := (simplify_rewrites hg.wellFormed).of_eq_ok hs
  obtain ⟨r, hr, -⟩ := (((hg.of_rewrites hwf hrewrites).extract_normalised (.inr rfl) rfl rfl hw).mono
    (fun _ h => h) fun e he => absurd he.2 (by decide)).exists_ok
  refine ⟨r.1, ?_⟩
  rw [optimise, Run.outcome_bind, outcome_lift_except, hok]
  show ((liftM g.simplify : Extraction (Bool × Diagram)) >>= fun s =>
    s.2.extract { width := 3 } >>= fun r => pure r.1).outcome = _
  rw [Run.outcome_bind, outcome_lift_run, hs]
  show (s.2.extract { width := 3 } >>= fun r => pure r.1).outcome = _
  rw [Run.outcome_bind, hr]
  rfl

theorem optimise_exact_carry : ∃ c', carry.optimise.outcome = .ok c' ∧ c'.width = 3 ∧
    ∀ x y, c'.amplitude 3 x y = carry.amplitude 3 x y := by
  obtain ⟨c, hok⟩ := carry_optimise
  rcases optimise_exact carry (by decide) with ⟨c', hc', hwidth, hexact⟩ | hover | ⟨hlarge, -⟩
  · exact ⟨c', hc', hwidth, hexact⟩
  · rw [hok] at hover
    cases hover
  · rw [hok] at hlarge
    cases hlarge

/-- So wide a circuit cannot be optimised either. -/
theorem optimise_fails_wide : (∀ gate ∈ (empty (2 ^ 60)).gates, gate.Fits (2 ^ 60)) ∧
    (empty (2 ^ 60)).optimise.outcome = .error (.fault .tooLarge) := by
  refine ⟨by decide, ?_⟩
  rw [optimise, Run.outcome_bind, outcome_lift_except, toDiagram_empty_tooLarge (by decide)]
  rfl

/-! ## Gates that are no Clifford gates -/

/-- An optimised circuit has at most as many gates that are no Clifford gates as the circuit had over
gates on one and two qubits. The diagrams on the way carry the bound: drawing twists at most one
spider for each such gate, no application of a rule twists more spiders than it removes, and
extraction emits at most one rotation for each twisted spider. -/
theorem optimise_nonClifford_le {c c' : Circuit} (h : c.optimise.outcome = .ok c') :
    (∃ basic g changed g' left, c.toBasic = .ok basic ∧ c.toDiagram = .ok g ∧
      g.simplify.outcome = .ok (changed, g') ∧
      (g'.extract { width := c.width }).outcome = .ok (c', left) ∧
      g.nonCliffordCount ≤ basic.stats.nonClifford ∧
      g'.nonCliffordCount ≤ g.nonCliffordCount ∧
      c'.stats.nonClifford ≤ g'.nonCliffordCount ∧
      c'.stats.nonClifford ≤ basic.stats.nonClifford) ∧
    (∀ g D : Diagram, g.Applied D → D.nonCliffordCount ≤ g.nonCliffordCount) ∧
    ∀ (g : Diagram) (options : ExtractionOptions) (e : Circuit) (left : Diagram),
      (g.extract options).outcome = .ok (e, left) → e.stats.nonClifford ≤ g.nonCliffordCount := by
  refine ⟨?_, fun g D => Applied.count_le, fun g options e left he =>
    ((g.extract_spends options).of_eq_ok he).2⟩
  obtain ⟨g, hg, h⟩ := Run.exists_of_bind_eq_ok h
  obtain ⟨⟨changed, g'⟩, hg', h⟩ := Run.exists_of_bind_eq_ok h
  obtain ⟨⟨e, left⟩, he, h⟩ := Run.exists_of_bind_eq_ok h
  cases h
  replace hg := mapError_eq_ok.mp hg
  replace hg' := mapError_eq_ok.mp hg'
  obtain ⟨basic, hbasic, hdrawn⟩ := c.toDiagram_count.of_eq_ok hg
  have hsimplified := (simplify_count g).of_eq_ok hg'
  have hextracted := ((g'.extract_spends _).of_eq_ok he).2
  exact ⟨basic, g, changed, g', left, hbasic, hg, hg', he, hdrawn, hsimplified, hextracted,
    (hextracted.trans hsimplified).trans hdrawn⟩

/-- Over one and two qubits `carry` has seven eighth turns and one gate of an unknown kind. -/
theorem optimise_nonClifford_le_carry : ∃ c', carry.optimise.outcome = .ok c' ∧
    c'.stats.nonClifford ≤ 8 := by
  obtain ⟨c', hc'⟩ := carry_optimise
  obtain ⟨⟨basic, g, changed, g', left, hbasic, -, -, -, -, -, -, hle⟩, -⟩ :=
    optimise_nonClifford_le hc'
  obtain rfl := Except.ok.inj (toBasic_carry.symm.trans hbasic)
  exact ⟨c', hc', hle.trans (by decide)⟩

end Circuit

end ZX
