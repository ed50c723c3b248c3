import Mathlib
import ZX.Proofs.Denominator.Rules
import ZX.Proofs.Extraction.Emission
import ZX.Proofs.Extraction.Orderly

/-!
# A common denominator for the whole pipeline

Drawing a circuit, simplifying the diagram and extracting a circuit from it compute with phases in
the rules alone; all other phases are copied or set to zero. So with a common denominator `D` of the
rotations and the global phase of a circuit, a multiple of 4 below `2 ^ 62`, all phases of the
pipeline are over `D`, and the run with guarded operations is the run itself.
-/
namespace ZX

open Relation

variable {S : Phase → Prop} {ops ops' : Phase.Arithmetic}

/-! ## Drawing -/

namespace Diagram

variable {g : Diagram} {p : Phase} {gate : Gate}

theorem PhasesIn.insertVertex (hg : g.PhasesIn S) (hzero : S Phase.zero) {d : VertexData}
    (hd : S d.phase) : (g.insertVertex d).2.PhasesIn S := by
  refine ⟨fun v d' hd' => ?_, ?_⟩
  · obtain hold | rfl := data?_insertVertex hd'
    · exact hg.vertex v d' hold
    · unfold startData
      split
      · exact hzero
      · exact hd
  · unfold Diagram.insertVertex
    dsimp only
    split <;> exact hg.scalar

theorem addVertex_phasesIn (hg : g.PhasesIn S) (hzero : S Phase.zero) {d : VertexData}
    (hd : S d.phase) : Ends (g.addVertex d) (fun r => r.2.PhasesIn S) fun _ => True :=
  (Ends.result _).imp fun _ hr => insertVertex_eq hr ▸ hg.insertVertex hzero hd

theorem setPhase_phasesIn (hg : g.PhasesIn S) (v : ℕ) (hp : S p) :
    Ends (g.setPhase v p) (PhasesIn S) fun _ => True :=
  (Ends.result _).bind fun _ hd => Ends.pure_iff.mpr (hg.setData hd hp)

theorem extendWire_phasesIn (hg : g.PhasesIn S) (hzero : S Phase.zero) (hp : S p) (q : ℕ)
    (k : VertexKind) (wire : EdgeKind) :
    Ends (g.extendWire q k wire p) (fun r => r.2.PhasesIn S) fun _ => True := by
  unfold extendWire
  split
  · exact Ends.pure_iff.mpr hg
  · rename_i v _
    refine (Ends.result _).bind fun ns _ => (Ends.result _).bind fun x _ => ?_
    refine Ends.bind (P := PhasesIn S) ?_ fun g₁ h₁ => ?_
    · exact (Ends.result _).bind fun d hd =>
        Ends.pure_iff.mpr (hg.setData hd (hg.vertex v d (data_eq_ok.mp hd)))
    refine (setPhase_phasesIn h₁ v hp).bind fun g₂ h₂ => ?_
    refine (addVertex_phasesIn h₂ hzero hzero).bind fun (out, g₃) h₃ => ?_
    refine (addEdge_relinked g₃ v out _).forget.bind fun g₄ h₄ => ?_
    have hg₄ := h₃.of_inherits h₄.inherits
    have hset : ∀ os, PhasesIn S { g₄ with outputs := os } := fun _ => ⟨hg₄.vertex, hg₄.scalar⟩
    dsimp only
    split
    · exact (toggleEdge_rekinded _ v _).forget.bind fun g₅ h₅ =>
        Ends.pure_iff.mpr ((hset _).of_inherits h₅.inherits)
    · exact Ends.pure_iff.mpr (hset _)

theorem addPair_phasesIn (hg : g.PhasesIn S) (hzero : S Phase.zero) (qubits : List ℕ)
    (k : VertexKind) (e : EdgeKind) :
    Ends (g.addPair qubits k e) (fun r => r.2.PhasesIn S) fun _ => True := by
  refine (Ends.result _).bind fun q₁ _ => ?_
  refine (extendWire_phasesIn hg hzero hzero q₁ .z .plain).bind fun (first, g₁) h₁ => ?_
  refine (Ends.result _).bind fun q₂ _ => ?_
  refine (extendWire_phasesIn h₁ hzero hzero q₂ k .plain).bind fun (second, g₂) h₂ => ?_
  dsimp only at h₂ ⊢
  split
  · refine (alignColumns_inherits g₂ _ _ _ _).bind fun g₃ h₃ => ?_
    refine (addEdge_relinked g₃ _ _ _).forget.bind fun g₄ h₄ => ?_
    refine (mulSqrt2Pow_inherits g₄ _).bind fun g₅ h₅ => Ends.pure_iff.mpr ?_
    exact h₂.of_inherits ((h₃.trans h₄.inherits).trans h₅)
  · exact Ends.pure_iff.mpr h₂

theorem addBasicGate_phasesIn (hg : g.PhasesIn S) (hzero : S Phase.zero)
    (hgate : S (gate.spiderPhase.getD Phase.zero)) :
    Ends (g.addBasicGate gate) (fun r => r.2.PhasesIn S) fun _ => True := by
  have hspider : ∀ k, Ends (do
      let r ← g.extendWire (← at? gate.qubits 0) k .plain (gate.spiderPhase.getD Phase.zero)
      return (r.1.toList, r.2)) (fun r => r.2.PhasesIn S) fun _ => True := fun k =>
    (Ends.result _).bind fun q _ => (extendWire_phasesIn hg hzero hgate q k .plain).bind fun r hr =>
      Ends.pure_iff.mpr hr
  obtain ⟨kind, qubits, phase⟩ := gate
  cases kind with
  | zPhase | z | s | sdg | t | tdg => exact hspider .z
  | xPhase | not => exact hspider .x
  | had =>
      refine (Ends.result _).bind fun q _ => ?_
      exact (extendWire_phasesIn hg hzero hzero q .z .hadamard).bind fun r hr => Ends.pure_iff.mpr hr
  | cnot => exact addPair_phasesIn hg hzero qubits .x .plain
  | cz => exact addPair_phasesIn hg hzero qubits .z .hadamard
  | swap =>
      refine (Ends.result _).bind fun q₀ _ => (Ends.result _).bind fun q₁ _ => ?_
      exact (swapOutputs_inherits g q₀ q₁).bind fun g' h => Ends.pure_iff.mpr (hg.of_inherits h)
  | ccz | toffoli | unknown => exact Ends.pure_iff.mpr hg

theorem addGate_phasesIn (hg : g.PhasesIn S) (hzero : S Phase.zero)
    (hgate : ∀ pieces, gate.basicGates = .ok pieces →
      ∀ piece ∈ pieces, S (piece.spiderPhase.getD Phase.zero)) :
    Ends (g.addGate gate) (fun r => r.2.PhasesIn S) fun _ => True := by
  obtain ⟨hadd, hbasic⟩ | hadd := g.addGate_cases gate
  · rw [hadd]
    exact addBasicGate_phasesIn hg hzero (hgate _ hbasic gate (List.mem_singleton_self gate))
  · rw [hadd]
    refine (Ends.result _).bind fun pieces hpieces => ?_
    refine Ends.bind (P := PhasesIn S) ?_ fun g' hg' => Ends.pure_iff.mpr hg'
    refine Ends.foldlM_mem (fun piece hpiece g' hg' => ?_) hg
    exact (addBasicGate_phasesIn hg' hzero (hgate pieces hpieces piece hpiece)).bind fun r hr =>
      Ends.pure_iff.mpr hr

theorem addBoundaries_phasesIn (hg : g.PhasesIn S) (hzero : S Phase.zero) (n : ℕ) (x : Float) :
    Ends (g.addBoundaries n x) (fun r => r.2.PhasesIn S) fun _ => True := by
  refine Ends.foldlM_mem (fun q _ r hr => ?_) hg
  exact (addVertex_phasesIn hr hzero hzero).bind fun r' hr' => Ends.pure_iff.mpr hr'

theorem wires_phasesIn (hzero : S Phase.zero) (n : ℕ) :
    Ends (wires n) (PhasesIn S) fun _ => True := by
  have hempty : empty.PhasesIn S := ⟨fun v d hd => by simp [empty, data?, vertex?] at hd, hzero⟩
  refine (Ends.result _).bind fun _ _ => ?_
  refine (addBoundaries_phasesIn hempty hzero n 0).bind fun r₁ h₁ => ?_
  refine (addBoundaries_phasesIn h₁ hzero n 1).bind fun r₂ h₂ => ?_
  refine Ends.bind (P := PhasesIn S) ?_ fun g hg => Ends.pure_iff.mpr ⟨hg.vertex, hg.scalar⟩
  exact Ends.foldlM_mem (fun l _ g hg => (addEdge_relinked g l.1 l.2 .plain).forget.imp fun _ h =>
    hg.of_inherits h.inherits) h₂

end Diagram

theorem Circuit.toDiagram_agrees {c : Circuit} (hops : ops.Alike S ops')
    (hgates : ∀ gate ∈ c.gates, ∀ pieces, gate.basicGates = .ok pieces →
      ∀ piece ∈ pieces, S (piece.spiderPhase.getD Phase.zero)) (hglobal : S c.globalPhase) :
    Agrees (c.toDiagram ops) (c.toDiagram ops') (Diagram.PhasesIn S) := by
  unfold toDiagram
  refine (Agrees.of_ends (Diagram.wires_phasesIn hops.zero c.width)).bind fun g₀ h₀ => ?_
  refine Agrees.bind (P := Diagram.PhasesIn S) (.of_ends ?_) fun g hg =>
    Diagram.mulPhase_agrees hops hg hglobal
  refine Ends.foldlM_mem (fun gate hgate g hg => ?_) h₀
  exact (Diagram.addGate_phasesIn hg hops.zero (hgates gate hgate)).bind fun r hr =>
    Ends.pure_iff.mpr hr

/-! ## Extracting -/

namespace Workspace

variable {w w' : Workspace}

/-- The phases of the diagram and of the gates in front of it have `S`. -/
structure PhasesIn (S : Phase → Prop) (w : Workspace) : Prop where
  diagram : w.diagram.PhasesIn S
  gates : ∀ gate ∈ w.circuit.gates, S gate.phase

theorem PhasesIn.emit (hw : w.PhasesIn S) {gate : Gate} (hgate : S gate.phase) :
    (w.emit gate).PhasesIn S := by
  refine ⟨hw.diagram, fun gate' hgate' => ?_⟩
  obtain rfl | hgate' := List.mem_cons.mp hgate'
  · exact hgate
  · exact hw.gates gate' hgate'

theorem Stage.phasesIn (hzero : S Phase.zero) (h : Stage w w') (hw : w.PhasesIn S) :
    w'.PhasesIn S := by
  cases h with
  | emit _ => exact hw.emit hzero
  | rotate q _ hp hg =>
      exact ⟨(Diagram.setPhase_phasesIn hw.diagram _ hzero).of_eq_ok hg,
        (hw.emit (hw.diagram.of_phase hp)).gates⟩
  | redraw h => exact ⟨hw.diagram.of_inherits h, hw.gates⟩
  | pad _ _ => exact ⟨hw.diagram.insertVertex hzero hzero, hw.gates⟩
  | place _ => exact ⟨hw.diagram, hw.gates⟩

theorem Stages.phasesIn (hzero : S Phase.zero) (h : Stages w w') (hw : w.PhasesIn S) :
    w'.PhasesIn S :=
  h.invariant (fun hstage => hstage.phasesIn hzero) hw

theorem prepare_agrees (hops : ops.Alike S ops') (hw : w.PhasesIn S) :
    Run.Agrees (w.prepare ops) (w.prepare ops') (PhasesIn S) := by
  have hinputs : Run.Agrees (w.normaliseInputs ops) (w.normaliseInputs ops') (PhasesIn S) := by
    unfold normaliseInputs
    refine (Run.Agrees.of_ends (Ends.mapError (Diagram.toGreen_phasesIn hw.diagram))).bind
      fun g₁ h₁ => ?_
    refine (Run.Agrees.lift_run (Diagram.fuseAll_agrees hops h₁)).bind fun (_, g₂) h₂ => .of_ends ?_
    exact (Stages.foldlM padInput_stages g₂.inputs { w with diagram := g₂ }).imp fun _ h₃ =>
      h₃.phasesIn hops.zero ⟨h₂, hw.gates⟩
  unfold prepare
  refine hinputs.bind fun w₁ h₁ => ?_
  refine (Run.Agrees.of_ends w₁.peelOutputs_stages).bind fun w₂ h₂ => .of_ends ?_
  exact Ends.mapError ((cutEdges_stages w₂.frontier w₂).imp fun _ h₃ =>
    (h₂.trans h₃).phasesIn hops.zero h₁)

theorem phasesIn_of_advances (hzero : S Phase.zero) (h : ReflTransGen Advances w w')
    (hw : w.PhasesIn S) : w'.PhasesIn S := by
  induction h with
  | refl => exact hw
  | tail _ hlast ih =>
      obtain ⟨new, hnew⟩ := hlast
      exact ((advance_stages _).of_eq_ok hnew).phasesIn hzero ih

end Workspace

namespace Diagram

variable {g : Diagram}

theorem extractionStart_phasesIn (hg : g.PhasesIn S) (options : ExtractionOptions) :
    (g.extractionStart options).PhasesIn S :=
  ⟨hg, fun _ hgate => absurd hgate List.not_mem_nil⟩

theorem extract_agrees (hops : ops.Alike S ops') (hg : g.PhasesIn S) (options : ExtractionOptions) :
    Run.Agrees (g.extract options ops) (g.extract options ops') fun r =>
      (∀ gate ∈ r.1.gates, S gate.phase) ∧ S r.1.globalPhase ∧ r.2.PhasesIn S := by
  unfold extract
  by_cases hk : g.inputs.length ≠ g.outputs.length
  · rw [if_pos hk, if_pos hk]
    refine .of_ends (Ends.run_emit (Ends.ok_iff.mpr ⟨?_, hg.scalar, hg⟩))
    exact fun _ hgate => absurd hgate List.not_mem_nil
  · rw [if_neg hk, if_neg hk]
    by_cases hn : g.extractionWidth options < g.outputs.length
    · rw [if_pos hn, if_pos hn]
      exact .of_ends (Ends.error_iff.mpr trivial)
    · rw [if_neg hn, if_neg hn]
      refine (Workspace.prepare_agrees hops (extractionStart_phasesIn hg options)).bind
        fun w hw => .of_ends ?_
      refine (w.finish_stages options).imp fun r hr => ?_
      obtain ⟨w', hstages, hgates, hphase, hrest⟩ := hr
      have hw' := hstages.phasesIn hops.zero hw
      exact ⟨fun gate hgate => hw'.gates gate (hgates.mem hgate), hphase ▸ hw'.diagram.scalar,
        hrest ▸ hw'.diagram⟩

end Diagram

/-! ## Denominators -/

theorem Gate.den_spiderPhase_dvd {D : ℕ} (h4 : 4 ∣ D) {gate : Gate}
    (hgate : gate.kind.isRotation = true → gate.phase.den ∣ D) :
    (gate.spiderPhase.getD Phase.zero).den ∣ D := by
  obtain ⟨kind, qubits, phase⟩ := gate
  have hone : 1 ∣ D := one_dvd D
  have htwo : 2 ∣ D := Dvd.dvd.trans (by norm_num) h4
  cases kind
  case zPhase | xPhase => exact hgate rfl
  case s | sdg => exact htwo
  case t | tdg => exact h4
  all_goals exact hone

theorem Gate.den_pieces_dvd {D : ℕ} (h4 : 4 ∣ D) {gate : Gate}
    (hgate : gate.kind.isRotation = true → gate.phase.den ∣ D) {pieces : List Gate}
    (hpieces : gate.basicGates = .ok pieces) {piece : Gate} (hpiece : piece ∈ pieces) :
    (piece.spiderPhase.getD Phase.zero).den ∣ D := by
  refine Gate.den_spiderPhase_dvd h4 ?_
  have hnetwork : ∀ a b c, ∀ gate ∈ cczNetwork a b c, gate.kind.isRotation = false := by
    intro a b c gate hmem
    simp only [cczNetwork, List.mem_cons, List.not_mem_nil, or_false] at hmem
    rcases hmem with rfl | rfl | rfl | rfl | rfl | rfl | rfl | rfl | rfl | rfl | rfl | rfl | rfl <;>
      rfl
  unfold basicGates at hpieces
  split at hpieces
  · cases hpieces
    simp [hnetwork _ _ _ piece hpiece]
  · cases hpieces
    intro hrotation
    rw [List.mem_append, List.mem_cons, List.mem_singleton] at hpiece
    obtain (rfl | hpiece) | rfl := hpiece
    · cases hrotation
    · simp [hnetwork _ _ _ piece hpiece] at hrotation
    · cases hrotation
  · cases hpieces
  · cases hpieces
  · cases hpieces
    rw [List.mem_singleton.mp hpiece]
    exact hgate

open Phase.Arithmetic in
/-- With a common denominator no operation on phases overflows, and every phase is over it. A run with
guarded operations ends with the fault `e`, whichever that is, as soon as an operand or a result is
not over `D` or a word overflows; it is the same run. -/
theorem Circuit.phases_over {c : Circuit} {D : ℕ} (h4 : 4 ∣ D) (hD : 0 < D) (hlt : D < 2 ^ 62)
    (hgates : ∀ gate ∈ c.gates, gate.kind.isRotation = true → gate.phase.den ∣ D)
    (hglobal : c.globalPhase.den ∣ D) (e : Fault) :
    c.toDiagram (guarded D e) = c.toDiagram ∧
    ∀ g, c.toDiagram = .ok g →
      g.PhasesIn (fun p => p.den ∣ D) ∧ g.simplify (guarded D e) = g.simplify ∧
      ∀ g', (g' = g ∨ ∃ changed, g.simplify.outcome = .ok (changed, g')) →
        g'.PhasesIn (fun p => p.den ∣ D) ∧
        ∀ options, g'.extract options (guarded D e) = g'.extract options ∧
          (∀ w₀ w, (g'.extractionStart options).prepare.outcome = .ok w₀ →
            ReflTransGen Workspace.Advances w₀ w → w.PhasesIn fun p => p.den ∣ D) ∧
          ∀ c' rest, (g'.extract options).outcome = .ok (c', rest) →
            rest.PhasesIn (fun p => p.den ∣ D) ∧ c'.globalPhase.den ∣ D ∧
            ∀ gate ∈ c'.gates, gate.phase.den ∣ D := by
  have hops := guarded_alike h4 hD hlt e
  obtain ⟨hdraw, hdrawn⟩ := toDiagram_agrees hops
    (fun gate hgate _ hpieces _ => Gate.den_pieces_dvd h4 (hgates gate hgate) hpieces) hglobal
  refine ⟨hdraw, fun g hg => ?_⟩
  have hphases := hdrawn.of_eq_ok hg
  obtain ⟨hsimplify, hsimplified⟩ := Diagram.simplify_agrees hops hphases
  refine ⟨hphases, hsimplify, fun g' hg' => ?_⟩
  have hphases' : g'.PhasesIn fun p => p.den ∣ D := by
    obtain rfl | ⟨changed, hchanged⟩ := hg'
    · exact hphases
    · exact hsimplified.of_eq_ok hchanged
  refine ⟨hphases', fun options => ?_⟩
  obtain ⟨hextract, hextracted⟩ := Diagram.extract_agrees hops hphases' options
  refine ⟨hextract, fun w₀ w hprepared hrun => ?_, fun c' rest hok => ?_⟩
  · have hw₀ := (Workspace.prepare_agrees hops
      (Diagram.extractionStart_phasesIn hphases' options)).2.of_eq_ok hprepared
    exact Workspace.phasesIn_of_advances hops.zero hrun hw₀
  · obtain ⟨hgates', hglobal', hrest⟩ := hextracted.of_eq_ok hok
    exact ⟨hrest, hglobal', hgates'⟩

/-- Rotations with the largest common denominator that is allowed, whose terms add up to more than
half a turn. -/
def Circuit.sliver : Circuit :=
  let thin : Phase := ⟨mkRat 1 (2 ^ 62 - 4), by decide, by decide, by decide⟩
  let wide : Phase := ⟨mkRat (2 ^ 62 - 5) (2 ^ 62 - 4), by decide, by decide, by decide⟩
  ⟨1, wide, [⟨.zPhase, [0], thin⟩, ⟨.zPhase, [0], wide⟩, .plain .t [0], .plain .had [0],
    ⟨.xPhase, [0], wide⟩]⟩

open Phase.Arithmetic in
theorem Circuit.phases_over_sliver :
    (4 ∣ 2 ^ 62 - 4 ∧ ∀ gate ∈ sliver.gates,
      gate.kind.isRotation = true → gate.phase.den ∣ 2 ^ 62 - 4) ∧
    sliver.toDiagram (guarded (2 ^ 62 - 4) .exhausted) = sliver.toDiagram ∧
    ∃ g, sliver.toDiagram = .ok g ∧ g.PhasesIn (fun p => p.den ∣ 2 ^ 62 - 4) ∧
      g.simplify (guarded (2 ^ 62 - 4) .exhausted) = g.simplify ∧
      g.extract {} (guarded (2 ^ 62 - 4) .exhausted) = g.extract {} := by
  have hgates : ∀ gate ∈ sliver.gates,
      gate.kind.isRotation = true → gate.phase.den ∣ 2 ^ 62 - 4 := by decide +kernel
  have h := phases_over (c := sliver) (D := 2 ^ 62 - 4) (by decide) (by decide) (by decide) hgates
    (by decide +kernel) .exhausted
  obtain ⟨g, hg, -⟩ := exists_ok_of_any (x := sliver.toDiagram) (p := fun _ => true)
    (by decide +kernel)
  obtain ⟨hphases, hsimplify, hextract⟩ := h.2 g hg
  exact ⟨⟨by decide, hgates⟩, h.1, g, hg, hphases, hsimplify,
    ((hextract g (.inl rfl)).2 {}).1⟩

end ZX
