import Mathlib
import ZX.Proofs.Arena.Frame
import ZX.Proofs.Extraction.Extract

/-!
# The stages of an extraction

Everything that happens to a workspace once its diagram is green and fused is a sequence of five
kinds of stages: a gate without an angle goes in front of the circuit, a spider hands its phase over
to a rotation, a diagram is redrawn with the phases it has, a spider without a phase is added, or the
frontier changes. What every stage keeps is kept by the whole extraction.
-/
namespace ZX

/-- The gates that an extraction emits. -/
inductive Gate.IsNative : Gate → Prop
  | rotation (q : ℕ) (p : Phase) : IsNative ⟨.zPhase, [q], p⟩
  | had (q : ℕ) : IsNative (.plain .had [q])
  | cnot (a b : ℕ) : IsNative (.plain .cnot [a, b])
  | cz (a b : ℕ) : IsNative (.plain .cz [a, b])

namespace Workspace

inductive Stage (w : Workspace) : Workspace → Prop
  | emit {k : GateKind} {qs : List ℕ} (h : (Gate.plain k qs).IsNative) :
      Stage w (w.emit (.plain k qs))
  | rotate {v : ℕ} {p : Phase} {g : Diagram} (q : ℕ) (hz : w.diagram.kind v = .ok .z)
      (hp : w.diagram.phase v = .ok p) (hg : w.diagram.setPhase v Phase.zero = .ok g) :
      Stage w { w.emit ⟨.zPhase, [q], p⟩ with diagram := g }
  | redraw {g : Diagram} (h : w.diagram.Inherits g) : Stage w { w with diagram := g }
  | pad (qubit column : Float) :
      Stage w { w with diagram := (w.diagram.insertVertex ⟨.z, Phase.zero, qubit, column⟩).2 }
  | place (F : List FrontierEntry) : Stage w { w with frontier := F }

def Stages : Workspace → Workspace → Prop := Relation.ReflTransGen Stage

variable {w w' w'' : Workspace} {g : Diagram} {u : ℕ}

namespace Stages

theorem refl (w : Workspace) : Stages w w := Relation.ReflTransGen.refl

theorem trans (h : Stages w w') (h' : Stages w' w'') : Stages w w'' :=
  Relation.ReflTransGen.trans h h'

theorem single (h : Stage w w') : Stages w w' := Relation.ReflTransGen.single h

/-- What every stage keeps is kept by all of them. -/
theorem invariant {I : Workspace → Prop} (hstage : ∀ {w w'}, Stage w w' → I w → I w')
    (h : Stages w w') (hw : I w) : I w' := by
  induction h with
  | refl => exact hw
  | tail _ hlast ih => exact hstage hlast ih

theorem redraw (h : w.diagram.Inherits g) : Stages w { w with diagram := g } := single (.redraw h)

theorem foldlM {α : Type} {step : Workspace → α → Extraction Workspace}
    (hstep : ∀ w a, Ends (step w a).outcome (Stages w) fun _ => True) (xs : List α)
    (w : Workspace) : Ends (xs.foldlM step w).outcome (Stages w) fun _ => True := by
  rw [Run.outcome_foldlM]
  exact Ends.foldlM_mem (I := Stages w) (fun a _ w' h => (hstep w' a).imp fun _ => h.trans) (.refl w)

end Stages

/-! ## The first frontier -/

/-- Padding adds one spider without a phase and lays edges. -/
theorem unfuseBoundary_stages (w : Workspace) (v b : ℕ) :
    Ends (w.diagram.unfuseBoundary v b) (fun r => Stages w { w with diagram := r.2 })
      fun _ => True := by
  refine (Ends.result _).bind fun k _ => ?_
  split
  · exact Ends.pure_iff.mpr (.refl w)
  · split
    · exact Ends.pure_iff.mpr (.refl w)
    · rename_i e _
      refine (Ends.result _).bind fun x _ => (Ends.result _).bind fun y _ => ?_
      refine (Ends.result _).bind fun l _ => ?_
      refine (Ends.result _).bind fun (new, g₀) h₀ => ?_
      have hpad := Stages.single (Stage.pad (w := w) l ((x + y) / 2))
      rw [Diagram.insertVertex_eq h₀] at hpad
      refine (Diagram.removeEdge_relinked g₀ v b).forget.bind fun g₁ h₁ => ?_
      refine (Diagram.addEdge_relinked g₁ b new _).forget.bind fun g₂ h₂ => ?_
      refine (Diagram.addEdge_relinked g₂ new v _).forget.bind fun g₃ h₃ => Ends.pure_iff.mpr ?_
      exact hpad.trans (.redraw ((h₁.inherits.trans h₂.inherits).trans h₃.inherits))

theorem padInput_stages (w : Workspace) (b : ℕ) :
    Ends (w.padInput b).outcome (Stages w) fun _ => True := by
  refine Ends.run_bind (Ends.result _) fun links _ => ?_
  split
  · refine Ends.run_bind (Ends.result _) fun k _ => ?_
    split
    · refine Ends.run_bind (Ends.mapError (unfuseBoundary_stages w _ b)) fun r hr => ?_
      split
      · exact Ends.run_emit (Ends.ok_iff.mpr hr)
      · exact Ends.ok_iff.mpr (.refl w)
    · exact Ends.ok_iff.mpr (.refl w)
  · exact Ends.error_iff.mpr trivial

theorem peelOutput_stages (w : Workspace) (q o : ℕ) :
    Ends (w.peelOutput q o).outcome (Stages w) fun _ => True := by
  refine Ends.run_bind (Ends.result _) fun links _ => ?_
  split
  · rename_i v e _
    refine Ends.run_bind (Ends.mapError (Ends.result (w.diagram.kind v))) fun k hk => ?_
    split
    · exact Ends.error_iff.mpr trivial
    · rename_i hz
      obtain rfl := not_not.mp hz
      split
      · exact Ends.error_iff.mpr trivial
      · have hwire : ∃ w₁, w₁ = (if e = .hadamard then w.emit (.plain .had [q]) else w) ∧
            Stages w w₁ ∧ w₁.diagram = w.diagram := by
          split
          · exact ⟨_, rfl, .single (.emit (.had q)), rfl⟩
          · exact ⟨w, rfl, .refl w, rfl⟩
        obtain ⟨w₁, hw₁, hstages, hdiagram⟩ := hwire
        rw [← hdiagram] at hk
        rw [← hw₁]
        refine Ends.run_bind (Ends.mapError (Ends.result (w₁.diagram.phase v))) fun p hp => ?_
        refine Ends.run_bind (Ends.mapError (Ends.result (w₁.diagram.setPhase v Phase.zero)))
          fun g₁ h₁ => ?_
        refine Ends.run_bind (Ends.mapError (Diagram.setQubit_edited g₁ v _).forget)
          fun g₂ h₂ => ?_
        refine Ends.run_bind (Ends.mapError (Diagram.removeEdge_relinked g₂ v o).forget)
          fun g₃ h₃ => Ends.ok_iff.mpr ?_
        have hphase := Stages.single (Stage.rotate (w := w₁) q hk hp h₁)
        have hline := h₂.inherits (fun _ => rfl) fun _ => rfl
        exact hstages.trans (hphase.trans ((Stages.redraw (hline.trans h₃.inherits)).trans
          (.single (.place _))))
  · exact Ends.error_iff.mpr trivial

theorem cutEdge_stages (a b : FrontierEntry) (w : Workspace) :
    Ends (cutEdge a w b) (Stages w) fun _ => True := by
  unfold cutEdge
  split
  · refine (Diagram.removeEdge_relinked w.diagram a.2 b.2).forget.bind fun g h => ?_
    exact Ends.pure_iff.mpr ((Stages.redraw h.inherits).trans (.single (.emit (.cz a.1 b.1))))
  · exact Ends.pure_iff.mpr (.refl w)

theorem cutEdges_stages (entries : List FrontierEntry) (w : Workspace) :
    Ends (cutEdges entries w) (Stages w) fun _ => True := by
  induction entries generalizing w with
  | nil => exact Ends.pure_iff.mpr (.refl w)
  | cons a rest ih =>
      refine Ends.bind (P := Stages w) ?_ fun w₁ h₁ => (ih w₁).imp fun _ => h₁.trans
      exact Ends.foldlM_mem (I := Stages w)
        (fun b _ w' h => (cutEdge_stages a b w').imp fun _ => h.trans) (.refl w)

theorem peelOutputs_stages (w : Workspace) :
    Ends w.peelOutputs.outcome (Stages w) fun _ => True :=
  (Stages.foldlM (fun w (o, q) => w.peelOutput_stages q o) _ _).imp fun _ =>
    (Stages.single (.place [])).trans

/-! ## Rounds -/

/-- A row step puts controlled nots in front of the circuit. -/
theorem apply_stages {x : FrontierGates} (h : Stages w { w with circuit := x.circuit })
    (step : RowStep) :
    Ends (step.apply x) (fun x' => Stages w { w with circuit := x'.circuit }) fun _ => True := by
  have hnot : ∀ (w : Workspace) (a b : ℕ), Stages w (w.emit (.plain .cnot [a, b])) :=
    fun w a b => .single (.emit (.cnot a b))
  cases step with
  | swap r₀ r₁ =>
      refine (Ends.result _).bind fun a _ => (Ends.result _).bind fun b _ => Ends.pure_iff.mpr ?_
      exact h.trans (((hnot _ a b).trans (hnot _ b a)).trans (hnot _ a b))
  | add r₀ r₁ =>
      refine (Ends.result _).bind fun a _ => (Ends.result _).bind fun b _ => Ends.pure_iff.mpr ?_
      exact h.trans (hnot _ a b)

theorem replay_stages (w : Workspace) (steps : List RowStep) (qubits : List ℕ) :
    Ends (RowStep.replay steps (⟨w.circuit, qubits⟩ : FrontierGates))
      (fun x => Stages w { w with circuit := x.circuit }) fun _ => True :=
  Ends.foldlM_mem (I := fun x : FrontierGates => Stages w { w with circuit := x.circuit })
    (fun step _ _ h => apply_stages h step) (.refl w)

theorem forOnes_inherits {act : Diagram → ℕ → ℕ → Except Fault Diagram}
    (hact : ∀ g s t, Ends (act g s t) (Diagram.Inherits g) fun _ => True) (m : ByteMatrix)
    (rows cols : List ℕ) (g : Diagram) :
    Ends (forOnes m rows cols act g) (Diagram.Inherits g) fun _ => True := by
  refine Ends.foldlM_mem (fun row _ g₁ h₁ => ?_) (.refl g)
  refine Ends.foldlM_mem (fun col _ g₂ h₂ => ?_) h₁
  dsimp only
  split
  · exact (hact g₂ row.1 col.1).imp fun _ => h₂.trans
  · exact Ends.pure_iff.mpr h₂

theorem advanceTo_stages {isInput : Bool} (hu : isInput = false → w.diagram.kind u = .ok .z)
    (q v : ℕ) : Ends (w.advanceTo q v u isInput) (Stages w) fun _ => True := by
  have hwire : Stages w (w.emit (.plain .had [q])) := .single (.emit (.had q))
  have hend : ∀ w' : Workspace, Stages w w' → ∀ g, w'.diagram.Inherits g →
      Stages w { w' with diagram := g, frontier := replaceEntry w'.frontier q u } :=
    fun w' h' g hg => (h'.trans (.redraw hg)).trans (.single (.place _))
  cases isInput with
  | true =>
      refine (Diagram.removeEdge_relinked w.diagram v u).forget.bind fun g₁ h₁ => ?_
      refine (Diagram.addEdge_relinked g₁ v u .plain).forget.bind fun g₂ h₂ => Ends.pure_iff.mpr ?_
      exact hend _ hwire g₂ (h₁.inherits.trans h₂.inherits)
  | false =>
      refine (Ends.result _).bind fun p hp => (Ends.result _).bind fun g₁ h₁ => ?_
      have hphase := hwire.trans (.single (.rotate q (hu rfl) hp h₁))
      refine (Ends.result _).bind fun line _ => (Ends.result _).bind fun x _ => ?_
      have hleave : ∀ g₂, Diagram.Inherits g₁ g₂ → Ends (do
          let g ← g₂.removeEdge v u
          let g ← g.removeVertex v
          let spent := (w.emit (.plain .had [q])).emit ⟨.zPhase, [q], p⟩
          return { spent with diagram := g, frontier := replaceEntry spent.frontier q u })
          (Stages w) fun _ => True := by
        intro g₂ h₂
        refine (Diagram.removeEdge_relinked g₂ v u).forget.bind fun g₃ h₃ => ?_
        refine (Diagram.removeVertex_cleared g₃ v).forget.bind fun g₄ h₄ => Ends.pure_iff.mpr ?_
        exact hend _ hphase g₄ ((h₂.trans h₃.inherits).trans h₄.inherits)
      dsimp only
      split
      · refine (Diagram.setQubit_edited g₁ u line).forget.bind fun g₂ h₂ => ?_
        refine (Ends.result _).bind fun y _ => ?_
        exact (Diagram.setColumn_edited g₂ u _).forget.bind fun g₃ h₃ => hleave g₃
          ((h₂.inherits (fun _ => rfl) fun _ => rfl).trans
            (h₃.inherits (fun _ => rfl) fun _ => rfl))
      · exact hleave g₁ (.refl g₁)

theorem extractUnits_stages (m : ByteMatrix) (rows : List FrontierEntry) (cols is : List ℕ)
    (w : Workspace) :
    Ends (extractUnits m rows cols is w).outcome (fun r => Stages w r.2) fun _ => True := by
  induction is generalizing w with
  | nil => exact Ends.ok_iff.mpr (.refl w)
  | cons i is ih =>
      refine Ends.run_bind (Ends.result _) fun row _ => ?_
      split
      · exact ih w
      · refine Ends.run_bind (Ends.result _) fun (q, v) _ => ?_
        refine Ends.run_bind (Ends.result _) fun u _ => ?_
        refine Ends.run_bind (Ends.result _) fun n _ => ?_
        split
        · exact ih w
        · refine Ends.run_bind (Ends.mapError (Ends.result (w.diagram.kind u))) fun k hk => ?_
          dsimp only
          split
          · exact Ends.error_iff.mpr trivial
          · rename_i hstray
            have hu : (decide (k = .boundary) && w.diagram.isInput u) = false →
                w.diagram.kind u = .ok .z := by
              intro hinput
              have hz : k = .z := by simpa [hinput] using hstray
              exact hz ▸ hk
            refine Ends.run_bind (Ends.mapError (advanceTo_stages hu q v)) fun w₁ h₁ => ?_
            exact Ends.run_bind (ih w₁) fun r hr => Ends.ok_iff.mpr (h₁.trans hr)

theorem advance_stages (w : Workspace) :
    Ends w.advance.outcome (fun r => Stages w r.2) fun _ => True := by
  refine Ends.run_bind (Ends.result _) fun rows _ => ?_
  split
  · exact Ends.ok_iff.mpr (.refl w)
  · refine Ends.run_bind (Ends.result _) fun found _ => ?_
    refine Ends.run_bind (Ends.result _) fun cols _ => ?_
    refine Ends.run_bind (Ends.result _) fun m _ => ?_
    refine Ends.run_bind (Ends.result _) fun (reduced, steps) _ => ?_
    refine Ends.run_emit ?_
    refine Ends.run_bind (Ends.mapError (w.replay_stages steps (rows.map Prod.fst))) fun x hx => ?_
    refine Ends.run_bind (Ends.mapError (forOnes_inherits (fun g s t =>
      (g.removeEdge_relinked s t).forget.imp fun _ h => h.inherits) m _ cols w.diagram))
        fun g₁ h₁ => ?_
    refine Ends.run_bind (Ends.mapError (forOnes_inherits (fun g s t =>
      (g.addEdge_relinked s t .hadamard).forget.imp fun _ h => h.inherits) reduced _ cols g₁))
        fun g₂ h₂ => ?_
    have hlaid : Stages w { w with diagram := g₂, circuit := x.circuit } :=
      hx.trans (.redraw (h₁.trans h₂))
    refine Ends.run_bind (extractUnits_stages reduced rows cols _ _) fun (new, w₁) hw₁ => ?_
    refine Ends.run_bind (Ends.mapError (cutEdges_stages new w₁)) fun w₂ hw₂ => Ends.ok_iff.mpr ?_
    exact ((hlaid.trans hw₁).trans hw₂).trans (.single (.place _))

theorem rounds_stages (maxRounds : Option ℕ) (fuel : ℕ) (visited : Std.HashSet ℕ) (done : ℕ)
    (idle : Bool) (w : Workspace) :
    Ends (rounds maxRounds fuel visited done idle w).outcome (fun r => Stages w r.2)
      fun _ => True := by
  induction fuel generalizing visited done idle w with
  | zero => exact Ends.error_iff.mpr trivial
  | succ fuel ih =>
      unfold rounds
      dsimp only
      split
      · exact Ends.ok_iff.mpr (.refl w)
      · split
        · exact Ends.run_emit (Ends.error_iff.mpr trivial)
        · refine Ends.run_bind w.advance_stages fun r h₁ => ?_
          obtain ⟨extracted, w₁⟩ := r
          refine Ends.run_emit ?_
          split
          · split
            · exact Ends.run_emit (Ends.error_iff.mpr trivial)
            · exact (ih _ _ _ w₁).imp fun _ => h₁.trans
          · exact (ih _ _ _ w₁).imp fun _ => h₁.trans

/-! ## The whole extraction -/

theorem permute_stages (steps : List RowStep) (qubits : List ℕ) (w : Workspace) :
    Ends (permute steps qubits w).outcome (Stages w) fun _ => True := by
  refine Stages.foldlM (fun w step => ?_) steps w
  cases step with
  | add src tgt => exact Ends.error_iff.mpr trivial
  | swap r₀ r₁ =>
      exact Ends.run_bind (Ends.mapError (apply_stages (x := ⟨w.circuit, qubits⟩) (.refl w)
        (.swap r₀ r₁))) fun x hx => Ends.ok_iff.mpr hx

theorem resolveInputs_stages (w : Workspace) :
    Ends w.resolveInputs.outcome (Stages w) fun _ => True := by
  refine Ends.run_bind (Ends.result _) fun found _ => ?_
  refine Ends.run_bind (Ends.result _) fun sorted _ => ?_
  refine Ends.run_bind (Ends.result _) fun _ _ => ?_
  refine Ends.run_bind (Ends.result _) fun m _ => ?_
  exact Ends.run_bind (Ends.result _) fun (_, steps) _ => permute_stages steps _ w

end Workspace

theorem Rule.zeroRotation_sublist (c : Circuit) :
    Ends (Rule.zeroRotation.fixedPoint c).outcome (fun r => r.2.gates.Sublist c.gates)
      fun _ => True := by
  refine batches_related (R := fun c d : Circuit => d.gates.Sublist c.gates) (fun c found => ?_)
    (fun _ => .refl _) (fun _ _ _ h h' => h'.trans h) _ c
  show Ends (pure (c.dropGates _)) _ _
  exact Ends.pure_iff.mpr keep_sublist

theorem Rule.hadamardPair_sublist (c : Circuit) :
    Ends (Rule.hadamardPair.fixedPoint c).outcome (fun r => r.2.gates.Sublist c.gates)
      fun _ => True := by
  refine batches_related (R := fun c d : Circuit => d.gates.Sublist c.gates) (fun c found => ?_)
    (fun _ => .refl _) (fun _ _ _ h h' => h'.trans h) _ c
  exact (Ends.result _).bind fun chosen _ => Ends.pure_iff.mpr keep_sublist

theorem Circuit.cleanup_sublist (c : Circuit) :
    Ends c.cleanup.outcome (fun r => r.2.gates.Sublist c.gates) fun _ => True := by
  refine Ends.run_bind (Rule.zeroRotation_sublist c) fun (_, d) hd => ?_
  exact Ends.run_bind (Rule.hadamardPair_sublist d) fun (_, e) he => Ends.ok_iff.mpr (he.trans hd)

/-- The rest of an extraction is a sequence of stages, of whose gates the clean-up drops some. The
phase of the scalar that is left becomes the global phase. -/
theorem Workspace.finish_stages (w : Workspace) (options : ExtractionOptions) :
    Ends (w.finish options).outcome (fun r => ∃ w', Workspace.Stages w w' ∧
      r.1.gates.Sublist w'.circuit.gates ∧ r.1.globalPhase = w'.diagram.scalar.phase ∧
      r.2 = w'.diagram) fun _ => True := by
  refine Ends.run_bind (w.rounds_stages _ _ _ _ _) fun (count, w₁) h₁ => ?_
  refine Ends.run_ite (P := Workspace.Stages w₁) ?_ fun w₂ h₂ => ?_
  · split
    · exact Ends.ok_iff.mpr (.refl w₁)
    · exact w₁.resolveInputs_stages
  refine Ends.run_ite (P := fun r => r.2.gates.Sublist w₂.circuit.gates) ?_ fun (_, c) hc => ?_
  · split
    · exact Ends.mapError w₂.circuit.cleanup_sublist
    · exact Ends.ok_iff.mpr (.refl _)
  exact Ends.run_emit (Ends.ok_iff.mpr ⟨w₂, h₁.trans h₂, hc, rfl, rfl⟩)

end ZX
