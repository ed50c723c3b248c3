import Mathlib
import ZX.Proofs.Arena.Frame
import ZX.Proofs.Denominator.Phases
import ZX.Simplify

/-!
# Rewriting with phases from a set

A diagram has its phases in `S` when the phases of its vertices and of its scalar have `S`. Two ways
to compute that are alike on `S` rewrite such a diagram alike, and what they lead to has its phases
in `S` again. This goes through all operations and rules, for any diagram: whether the arena behind
it is consistent does not matter.
-/
namespace ZX

namespace Diagram

variable {S : Phase → Prop} {ops ops' : Phase.Arithmetic} {g g' : Diagram} {v : ℕ} {p : Phase}
  {d : VertexData}

structure PhasesIn (S : Phase → Prop) (g : Diagram) : Prop where
  vertex : ∀ v d, g.data? v = some d → S d.phase
  scalar : S g.scalar.phase

namespace PhasesIn

theorem of_inherits (h : g.PhasesIn S) (h' : Inherits g g') : g'.PhasesIn S := by
  refine ⟨fun v d' hd' => ?_, h'.scalar ▸ h.scalar⟩
  obtain ⟨d, hd, -, hphase⟩ := h'.data v d' hd'
  exact hphase ▸ h.vertex v d hd

theorem of_phase (h : g.PhasesIn S) (hp : g.phase v = .ok p) : S p := by
  obtain ⟨d, hd, rfl⟩ := phase_eq_ok.mp hp
  exact h.vertex v d hd

theorem setData (h : g.PhasesIn S) (hv : g.data v = .ok d) {d' : VertexData} (hp : S d'.phase) :
    (g.setData v d').PhasesIn S := by
  refine ⟨fun u d'' hu => ?_, h.scalar⟩
  rw [data?_setData d' (contains_of_data? (data_eq_ok.mp hv))] at hu
  split at hu
  · cases hu
    exact hp
  · exact h.vertex u d'' hu

/-- An operation that leaves phases alone keeps them in the set. -/
theorem ends {x : Except Fault Diagram} {P : Diagram → Prop} {E : Fault → Prop} (h : g.PhasesIn S)
    (hx : Ends x P E) (hP : ∀ g', P g' → Inherits g g') : Agrees x x (PhasesIn S) :=
  .of_ends (hx.forget.imp fun g' hg' => h.of_inherits (hP g' hg'))

end PhasesIn

/-! ## Operations -/

theorem addToPhase_agrees (hops : ops.Alike S ops') (hg : g.PhasesIn S) (v : ℕ) (hp : S p) :
    Agrees (g.addToPhase v p ops) (g.addToPhase v p ops') (PhasesIn S) :=
  Agrees.bind_result fun _ hd => (hops.add (hg.vertex v _ (data_eq_ok.mp hd)) hp).bind fun _ hq =>
    .of_pure (hg.setData hd hq)

theorem mulPhase_agrees (hops : ops.Alike S ops') (hg : g.PhasesIn S) (hp : S p) :
    Agrees (g.mulPhase p ops) (g.mulPhase p ops') (PhasesIn S) := by
  refine Agrees.bind (P := fun s => S s.phase) ?_ fun s hs => .of_pure ⟨hg.vertex, hs⟩
  exact (hops.add hg.scalar hp).bind fun q hq => .of_pure hq

theorem absorbHadamard_agrees (hops : ops.Alike S ops') (hg : g.PhasesIn S) (v : ℕ) :
    Agrees (g.absorbHadamard v ops) (g.absorbHadamard v ops') (PhasesIn S) :=
  (addToPhase_agrees hops hg v hops.one).bind fun g' hg' =>
    hg'.ends (mulSqrt2Pow_inherits g' _) fun _ h => h

theorem mergeEdge_agrees (hops : ops.Alike S ops') (hg : g.PhasesIn S) (s t : ℕ)
    (strong present new : EdgeKind) :
    Agrees (g.mergeEdge s t strong present new ops) (g.mergeEdge s t strong present new ops')
      (PhasesIn S) := by
  unfold mergeEdge
  split
  · split
    · exact .of_pure hg
    · exact absorbHadamard_agrees hops hg s
  · split
    · exact (hg.ends (setEdgeKind_rekinded g s t strong) fun _ h => h.inherits).bind fun g' hg' =>
        absorbHadamard_agrees hops hg' s
    · exact (hg.ends (removeEdge_relinked g s t) fun _ h => h.inherits).bind fun g' hg' =>
        hg'.ends (mulSqrt2Pow_inherits g' _) fun _ h => h

theorem connect_agrees (hops : ops.Alike S ops') (hg : g.PhasesIn S) (s t : ℕ) (e : EdgeKind) :
    Agrees (g.connect s t e ops) (g.connect s t e ops') (PhasesIn S) := by
  unfold connect
  refine Agrees.bind_result fun source _ => ?_
  by_cases hst : s = t
  · rw [if_pos hst, if_pos hst]
    have hloop : Agrees (match e with
        | .hadamard => g.absorbHadamard s ops
        | .plain => return g) (match e with
        | .hadamard => g.absorbHadamard s ops'
        | .plain => return g) (PhasesIn S) := by
      cases e with
      | hadamard => exact absorbHadamard_agrees hops hg s
      | plain => exact .of_pure hg
    cases source with
    | boundary => exact .of_throw _
    | z => cases e <;> exact hloop
    | x => cases e <;> exact hloop
  · rw [if_neg hst, if_neg hst]
    cases g.edgeKind? s t with
    | none => exact hg.ends (addEdge_relinked g s t e) fun _ h => h.inherits
    | some present =>
        refine Agrees.bind_result fun target _ => ?_
        cases source <;> cases target
        case z.z | x.x => exact mergeEdge_agrees hops hg s t _ present e
        case z.x | x.z => exact mergeEdge_agrees hops hg s t _ present e
        all_goals exact .of_throw _

/-! ## Rules -/

theorem fuse_agrees (hops : ops.Alike S ops') (hg : g.PhasesIn S) (v₀ v₁ : ℕ) :
    Agrees (g.fuse v₀ v₁ ops) (g.fuse v₀ v₁ ops') (PhasesIn S) := by
  refine Agrees.bind_result fun links _ => ?_
  refine Agrees.bind (P := PhasesIn S) ?_ fun moved hmoved => ?_
  · refine Agrees.foldlM_mem (fun l _ g' hg' => ?_) hg
    dsimp only
    split
    · exact .of_pure hg'
    · exact connect_agrees hops hg' v₀ _ _
  · refine Agrees.bind_result fun p hp => ?_
    exact (addToPhase_agrees hops hmoved v₀ (hmoved.of_phase hp)).bind fun g' hg' =>
      hg'.ends (removeVertex_cleared g' v₁) fun _ h => h.inherits

theorem removeIdentity_agrees (hops : ops.Alike S ops') (hg : g.PhasesIn S) (v : ℕ) :
    Agrees (g.removeIdentity v ops) (g.removeIdentity v ops') (PhasesIn S) := by
  refine Agrees.bind_result fun links _ => ?_
  obtain _ | ⟨⟨s, e⟩, _ | ⟨⟨t, f⟩, links⟩⟩ := links
  · exact .of_throw _
  · exact .of_throw _
  · exact (hg.ends (removeVertex_cleared g v) fun _ h => h.inherits).bind fun g' hg' =>
      connect_agrees hops hg' s t _

theorem completeGraph_agrees (hops : ops.Alike S ops') (hp : S p) (vs : List ℕ)
    (hg : g.PhasesIn S) :
    Agrees (completeGraph p vs g ops) (completeGraph p vs g ops') (PhasesIn S) := by
  induction vs generalizing g with
  | nil => exact .of_pure hg
  | cons v vs ih =>
      refine (addToPhase_agrees hops hg v hp).bind fun g₁ h₁ => ?_
      refine Agrees.bind (P := PhasesIn S) ?_ fun g₂ h₂ => ih h₂
      exact Agrees.foldlM_mem (fun w _ g' hg' => connect_agrees hops hg' v w _) h₁

theorem localComplement_agrees (hops : ops.Alike S ops') (hg : g.PhasesIn S) (v : ℕ) :
    Agrees (g.localComplement v ops) (g.localComplement v ops') (PhasesIn S) := by
  refine Agrees.bind_result fun p hp => Agrees.bind_result fun ns _ => ?_
  refine (hops.neg (hg.of_phase hp)).bind fun q hq => ?_
  refine (completeGraph_agrees hops hq ns hg).bind fun g₁ h₁ => ?_
  refine (h₁.ends (removeVertex_cleared g₁ v) fun _ h => h.inherits).bind fun g₂ h₂ => ?_
  refine Agrees.bind_result fun k _ => ?_
  refine (h₂.ends (mulSqrt2Pow_inherits g₂ _) fun _ h => h).bind fun g₃ h₃ => ?_
  exact (hops.ofFraction p.num).bind fun r hr => mulPhase_agrees hops h₃ hr

theorem completeBipartite_agrees (hops : ops.Alike S ops') (hp : S p) (hg : g.PhasesIn S)
    (v₀ v₁ : ℕ) (ns₀ ns₁ : List ℕ) :
    Agrees (completeBipartite v₀ v₁ p ns₀ ns₁ g ops) (completeBipartite v₀ v₁ p ns₀ ns₁ g ops')
      (PhasesIn S) := by
  refine Agrees.foldlM_mem (fun n₀ _ g₁ h₁ => ?_) hg
  refine (addToPhase_agrees hops h₁ n₀ hp).bind fun g₂ h₂ => ?_
  refine Agrees.foldlM_mem (fun n₁ _ g₃ h₃ => ?_) h₂
  split
  · exact connect_agrees hops h₃ n₀ n₁ _
  · exact .of_pure h₃

theorem pivot_agrees (hops : ops.Alike S ops') (hg : g.PhasesIn S) (v₀ v₁ : ℕ) :
    Agrees (g.pivot v₀ v₁ ops) (g.pivot v₀ v₁ ops') (PhasesIn S) := by
  refine Agrees.bind_result fun p₀ hp₀ => Agrees.bind_result fun p₁ hp₁ => ?_
  refine Agrees.bind_result fun ns₀ _ => Agrees.bind_result fun ns₁ _ => ?_
  refine (completeBipartite_agrees hops (hg.of_phase hp₁) hg v₀ v₁ ns₀ ns₁).bind fun g₁ h₁ => ?_
  refine Agrees.bind (P := PhasesIn S) ?_ fun g₂ h₂ => ?_
  · exact Agrees.foldlM_mem (fun n _ g' hg' => addToPhase_agrees hops hg' n (hg.of_phase hp₀)) h₁
  refine (h₂.ends (removeVertex_cleared g₂ v₀) fun _ h => h.inherits).bind fun g₃ h₃ => ?_
  refine (h₃.ends (removeVertex_cleared g₃ v₁) fun _ h => h.inherits).bind fun g₄ h₄ => ?_
  refine Agrees.bind_result fun k _ => ?_
  refine (h₄.ends (mulSqrt2Pow_inherits g₄ k) fun _ h => h).bind fun g₅ h₅ => ?_
  split
  · exact mulPhase_agrees hops h₅ hops.one
  · exact .of_pure h₅

/-- A rule looks at a place again before it acts. -/
theorem tried_agrees {x y : Except Fault Diagram} {P : Diagram → Prop} (b : Bool)
    (h : Agrees x y P) :
    Agrees (if b then return some (← x) else return none : Except Fault (Option Diagram))
      (if b then return some (← y) else return none) fun o => ∀ g' ∈ o, P g' := by
  cases b with
  | false => exact .of_pure (by simp)
  | true => exact h.bind fun g' hg' => .of_pure (by simpa using hg')

theorem toGreen_phasesIn (hg : g.PhasesIn S) : Ends g.toGreen (PhasesIn S) fun _ => True := by
  refine Ends.foldlM_mem (fun v _ g' hg' => ?_) hg
  refine (Ends.result _).bind fun k _ => ?_
  split
  · refine Ends.bind (P := PhasesIn S) ?_ fun g₁ h₁ => (Ends.result _).bind fun ns _ => ?_
    · exact (Ends.result _).bind fun d hd => Ends.pure_iff.mpr
        (hg'.setData hd (hg'.vertex v d (data_eq_ok.mp hd)))
    · exact Ends.foldlM_mem (fun w _ g₂ h₂ =>
        (toggleEdge_rekinded g₂ v w).forget.imp fun _ h => h₂.of_inherits h.inherits) h₁
  · exact Ends.pure_iff.mpr hg'

end Diagram

/-! ## Fixed points -/

/-- Two rules that differ in how they act lead to one fixed point where they act alike. -/
theorem Rule.fixedPoint_agrees {τ μ : Type} {I : τ → Prop} (name : String) (measure : τ → ℕ)
    (places : τ → Except Fault (List μ)) {act act' : τ → List μ → Except Fault τ}
    (hact : ∀ x found, I x → Agrees (act x found) (act' x found) I) {x : τ} (hx : I x) :
    Run.Agrees (Rule.fixedPoint ⟨name, measure, places, act⟩ x)
      (Rule.fixedPoint ⟨name, measure, places, act'⟩ x) fun result => I result.2 := by
  have honce : ∀ x, I x → Run.Agrees (Rule.once ⟨name, measure, places, act⟩ x)
      (Rule.once ⟨name, measure, places, act'⟩ x) fun o => ∀ y ∈ o, I y := by
    intro x hx
    refine Run.Agrees.bind_result fun found _ => ?_
    cases found with
    | nil => exact .of_ends (Ends.ok_iff.mpr (by simp))
    | cons m found =>
        refine Run.Agrees.bind_result fun _ _ => ?_
        refine (Run.Agrees.lift (hact x (m :: found) hx)).bind fun y hy => .of_ends ?_
        exact Ends.ok_iff.mpr (by simpa using hy)
  have hbatches : ∀ n x, I x → Run.Agrees (Rule.batches ⟨name, measure, places, act⟩ n x)
      (Rule.batches ⟨name, measure, places, act'⟩ n x) fun result => I result.2 := by
    intro n
    induction n with
    | zero => exact fun x _ => .of_ends (Ends.throw_iff.mpr trivial)
    | succ n ih =>
        intro x hx
        refine (honce x hx).bind fun o ho => ?_
        cases o with
        | none => exact .of_ends (Ends.ok_iff.mpr hx)
        | some y =>
            exact (ih y (ho y rfl)).bind fun result hresult => .of_ends (Ends.ok_iff.mpr hresult)
  exact hbatches _ x hx

namespace Diagram

variable {S : Phase → Prop} {ops ops' : Phase.Arithmetic} {g : Diagram}

/-- Rules that differ in what an attempt does at a place. -/
theorem attempts_agree {μ : Type} (name : String) (measure : Diagram → ℕ)
    (places : Diagram → Except Fault (List μ))
    {attempt attempt' : Diagram → μ → Except Fault (Option Diagram)}
    (hstep : ∀ g m, g.PhasesIn S →
      Agrees (attempt g m) (attempt' g m) fun o => ∀ g' ∈ o, g'.PhasesIn S)
    (hg : g.PhasesIn S) :
    Run.Agrees
      (Rule.fixedPoint ⟨name, measure, places, fun g found =>
        found.foldlM (fun g m => return (← attempt g m).getD g) g⟩ g)
      (Rule.fixedPoint ⟨name, measure, places, fun g found =>
        found.foldlM (fun g m => return (← attempt' g m).getD g) g⟩ g)
      fun result => result.2.PhasesIn S := by
  refine Rule.fixedPoint_agrees name measure places (fun g₁ found h₁ => ?_) hg
  refine Agrees.foldlM_mem (fun m _ g₂ h₂ => (hstep g₂ m h₂).bind fun o ho => .of_pure ?_) h₁
  cases o with
  | none => exact h₂
  | some g₃ => exact ho g₃ rfl

theorem fuseAll_agrees (hops : ops.Alike S ops') (hg : g.PhasesIn S) :
    Run.Agrees (g.fuseAll ops) (g.fuseAll ops') fun result => result.2.PhasesIn S :=
  attempts_agree _ _ _
    (fun g m h => tried_agrees (g.fusible m.1 m.2) (fuse_agrees hops h m.1 m.2)) hg

theorem removeIdentities_agrees (hops : ops.Alike S ops') (hg : g.PhasesIn S) :
    Run.Agrees (g.removeIdentities ops) (g.removeIdentities ops')
      fun result => result.2.PhasesIn S :=
  attempts_agree _ _ _
    (fun g v h => tried_agrees (g.removable v) (removeIdentity_agrees hops h v)) hg

theorem complementAll_agrees (hops : ops.Alike S ops') (hg : g.PhasesIn S) :
    Run.Agrees (g.complementAll ops) (g.complementAll ops') fun result => result.2.PhasesIn S :=
  attempts_agree _ _ _
    (fun g v h => tried_agrees (g.complementable v) (localComplement_agrees hops h v)) hg

theorem pivotAll_agrees (hops : ops.Alike S ops') (hg : g.PhasesIn S) :
    Run.Agrees (g.pivotAll ops) (g.pivotAll ops') fun result => result.2.PhasesIn S :=
  attempts_agree _ _ _
    (fun g m h => tried_agrees (g.pivotable m.1 m.2) (pivot_agrees hops h m.1 m.2)) hg

theorem interiorPass_agrees (hops : ops.Alike S ops') (hg : g.PhasesIn S) :
    Run.Agrees (g.interiorPass ops) (g.interiorPass ops') fun result => result.2.PhasesIn S := by
  unfold interiorPass
  refine (removeIdentities_agrees hops hg).bind fun (b₁, g₁) h₁ => ?_
  refine (fuseAll_agrees hops h₁).bind fun (b₂, g₂) h₂ => ?_
  refine (pivotAll_agrees hops h₂).bind fun (b₃, g₃) h₃ => ?_
  exact (complementAll_agrees hops h₃).bind fun (b₄, g₄) h₄ => .of_ends (Ends.ok_iff.mpr h₄)

theorem interiorPasses_agrees (hops : ops.Alike S ops') (n : ℕ) (hg : g.PhasesIn S) :
    Run.Agrees (interiorPasses n g ops) (interiorPasses n g ops')
      fun result => result.2.PhasesIn S := by
  induction n generalizing g with
  | zero =>
      unfold interiorPasses
      exact .of_ends (Ends.throw_iff.mpr trivial)
  | succ n ih =>
      unfold interiorPasses
      refine (interiorPass_agrees hops hg).bind fun (changed, g₁) h₁ => ?_
      cases changed with
      | false =>
          simp only [Bool.false_eq_true, if_false]
          exact .of_ends (Ends.ok_iff.mpr h₁)
      | true =>
          simp only [if_true]
          exact (ih h₁).bind fun (_, g₂) h₂ => .of_ends (Ends.ok_iff.mpr h₂)

theorem simplify_agrees (hops : ops.Alike S ops') (hg : g.PhasesIn S) :
    Run.Agrees (g.simplify ops) (g.simplify ops') fun result => result.2.PhasesIn S := by
  have hinterior : Run.Agrees (g.simplifyInterior ops) (g.simplifyInterior ops')
      fun result => result.2.PhasesIn S := by
    unfold simplifyInterior
    refine (fuseAll_agrees hops hg).bind fun (_, g₁) h₁ => ?_
    refine (Run.Agrees.lift (.of_ends (toGreen_phasesIn h₁))).bind fun g₂ h₂ => ?_
    exact interiorPasses_agrees hops _ h₂
  unfold simplify
  refine hinterior.bind fun (_, g₁) h₁ => ?_
  refine (fuseAll_agrees hops h₁).bind fun (_, g₂) h₂ => ?_
  exact Run.Agrees.bind_result fun _ _ => .of_ends (Ends.ok_iff.mpr h₂)

end Diagram

end ZX
