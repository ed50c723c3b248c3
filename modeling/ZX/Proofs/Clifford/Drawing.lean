import Mathlib
import ZX.Circuit.Diagram
import ZX.Circuit.Stats
import ZX.Proofs.Clifford.Count

/-!
# Twisted spiders of a drawn circuit

A gate on one qubit turns the end of its wire into one spider, and the spider is twisted only if the
gate is no Clifford gate. Gates on two qubits draw spiders without a phase. So the diagram of a
circuit has at most as many twisted spiders as the circuit has gates, over one and two qubits, that
are no Clifford gates.
-/
namespace ZX

open Finset

namespace Diagram

variable {g g' : Diagram} {v : ℕ} {d : VertexData} {p : Phase}

/-- A vertex after an insertion was there before, or it is the new one. -/
theorem data?_insertVertex {d' : VertexData} (h : (g.insertVertex d).2.data? v = some d') :
    g.data? v = some d' ∨ d' = startData d := by
  obtain ⟨x, hx, rfl⟩ := Option.map_eq_some_iff.mp h
  suffices hvertex : g.vertex? v = some x ∨ x = ⟨startData d, []⟩ by
    obtain hold | rfl := hvertex
    · exact .inl (data?_of_vertex? hold)
    · exact .inr rfl
  rw [vertex?_eq_some] at hx ⊢
  cases hholes : g.holes with
  | nil =>
      simp only [insertVertex, hholes, Array.getElem?_push] at hx
      split at hx
      · cases hx
        exact .inr rfl
      · exact .inl hx
  | cons w rest =>
      simp only [insertVertex, hholes, Array.getElem?_setIfInBounds] at hx
      split at hx
      · split at hx
        · cases hx
          exact .inr rfl
        · cases hx
      · exact .inl hx

theorem twisted_insertVertex_subset (hd : d.kind = .boundary ∨ d.phase.isClifford = true) :
    (g.insertVertex d).2.twisted ⊆ g.twisted := by
  have hstart : (startData d).isTwisted = false := by
    unfold startData VertexData.isTwisted
    split
    · rename_i hk
      simp [hk]
    · rename_i hk
      simp [hd.resolve_left hk]
  intro u hu
  obtain ⟨d', hd', htwisted⟩ := mem_twisted.mp hu
  obtain hold | rfl := data?_insertVertex hd'
  · exact mem_twisted.mpr ⟨d', hold, htwisted⟩
  · rw [hstart] at htwisted
    cases htwisted

theorem addVertex_twisted (g : Diagram) (hd : d.kind = .boundary ∨ d.phase.isClifford = true) :
    Ends (g.addVertex d) (fun r => r.2.twisted ⊆ g.twisted) fun _ => True :=
  (Ends.result _).imp fun _ hr => insertVertex_eq hr ▸ twisted_insertVertex_subset hd

/-! ## Gates -/

/-- At most `n` spiders become twisted. -/
def Twists (n : ℕ) (g g' : Diagram) : Prop := g'.nonCliffordCount ≤ g.nonCliffordCount + n

theorem Inherits.twists (h : Inherits g g') : Twists 0 g g' := (KeepsTwists.of_inherits h).count_le

theorem Twists.trans {m n : ℕ} {g'' : Diagram} (h : Twists m g g') (h' : Twists n g' g'') :
    Twists (m + n) g g'' := by
  unfold Twists at *
  omega

theorem twists_of_subset (h : g'.twisted ⊆ g.twisted) : Twists 0 g g' := by
  rw [Twists, ← card_twisted, ← card_twisted]
  exact card_le_card h

theorem setKind_twisted (g : Diagram) (v : ℕ) (k : VertexKind) :
    Ends (g.setKind v k) (fun g' => g'.twisted ⊆ insert v g.twisted) fun _ => True := by
  refine (Ends.result _).bind fun d hd => Ends.pure_iff.mpr ?_
  rw [twisted_setData (contains_of_data? (data_eq_ok.mp hd))]
  split
  · exact Subset.refl _
  · exact (erase_subset _ _).trans (subset_insert _ _)

theorem setPhase_twisted (g : Diagram) (v : ℕ) (p : Phase) :
    Ends (g.setPhase v p) (fun g' => g'.twisted ⊆
      if p.isClifford then g.twisted.erase v else insert v g.twisted) fun _ => True := by
  refine (Ends.result _).bind fun d hd => Ends.pure_iff.mpr ?_
  rw [twisted_setData (contains_of_data? (data_eq_ok.mp hd))]
  cases hp : p.isClifford with
  | true => simp [VertexData.isTwisted, hp]
  | false =>
      rw [if_neg Bool.false_ne_true]
      split
      · exact Subset.refl _
      · exact (erase_subset _ _).trans (subset_insert _ _)

theorem extendWire_twists (g : Diagram) (q : ℕ) (k : VertexKind) (wire : EdgeKind) (p : Phase) :
    Ends (g.extendWire q k wire p) (fun r => Twists (if p.isClifford then 0 else 1) g r.2)
      fun _ => True := by
  unfold extendWire
  split
  · exact Ends.pure_iff.mpr (Nat.le_add_right _ _)
  · rename_i v hv
    refine (Ends.result _).bind fun ns _ => (Ends.result _).bind fun x _ => ?_
    refine (setKind_twisted g v k).bind fun g₁ h₁ => ?_
    refine (setPhase_twisted g₁ v p).bind fun g₂ h₂ => ?_
    have hspider : Twists (if p.isClifford then 0 else 1) g g₂ := by
      rw [Twists, ← card_twisted, ← card_twisted]
      split
      · rename_i hp
        rw [if_pos hp] at h₂
        refine card_le_card (t := g.twisted) fun u hu => ?_
        obtain ⟨hne, hu⟩ := mem_erase.mp (h₂ hu)
        exact mem_of_mem_insert_of_ne (h₁ hu) hne
      · rename_i hp
        rw [if_neg hp] at h₂
        have hsub : g₂.twisted ⊆ insert v g.twisted :=
          h₂.trans (insert_subset (mem_insert_self _ _) h₁)
        exact (card_le_card hsub).trans (card_insert_le _ _)
    refine (addVertex_twisted g₂ (.inl rfl)).bind fun r hr => ?_
    refine (addEdge_relinked _ v _ _).forget.bind fun g₃ h₃ => ?_
    have hg₃ := (hspider.trans (twists_of_subset hr)).trans h₃.inherits.twists
    dsimp only
    split
    · refine (toggleEdge_rekinded _ v _).forget.bind fun g₄ h₄ => Ends.pure_iff.mpr ?_
      exact hg₃.trans h₄.inherits.twists
    · exact Ends.pure_iff.mpr hg₃

theorem alignColumns_inherits (g : Diagram) (v₁ v₂ q₁ q₂ : ℕ) :
    Ends (g.alignColumns v₁ v₂ q₁ q₂) (Inherits g) fun _ => True := by
  refine (Ends.result _).bind fun o₁ _ => (Ends.result _).bind fun o₂ _ => ?_
  refine (Ends.result _).bind fun x _ => (Ends.result _).bind fun y _ => ?_
  have hset : ∀ (g : Diagram) v x, Ends (g.setColumn v x) (Inherits g) fun _ => True :=
    fun g v x => (setColumn_edited g v x).forget.imp fun _ h => h.inherits (fun _ => rfl) fun _ => rfl
  refine (hset g v₁ _).bind fun g₁ h₁ => (hset g₁ v₂ _).bind fun g₂ h₂ => ?_
  refine (hset g₂ o₁ _).bind fun g₃ h₃ => ?_
  exact (hset g₃ o₂ _).imp fun _ => ((h₁.trans h₂).trans h₃).trans

theorem addPair_twists (g : Diagram) (qubits : List ℕ) (k : VertexKind) (e : EdgeKind) :
    Ends (g.addPair qubits k e) (fun r => Twists 0 g r.2) fun _ => True := by
  refine (Ends.result _).bind fun q₁ _ => ?_
  refine (extendWire_twists g q₁ .z .plain Phase.zero).bind fun (first, g₁) h₁ => ?_
  refine (Ends.result _).bind fun q₂ _ => ?_
  refine (extendWire_twists g₁ q₂ k .plain Phase.zero).bind fun (second, g₂) h₂ => ?_
  have hspiders : Twists 0 g g₂ := h₁.trans h₂
  dsimp only
  split
  · refine (alignColumns_inherits g₂ _ _ _ _).bind fun g₃ h₃ => ?_
    refine (addEdge_relinked g₃ _ _ _).forget.bind fun g₄ h₄ => ?_
    refine (mulSqrt2Pow_inherits g₄ _).bind fun g₅ h₅ => Ends.pure_iff.mpr ?_
    exact hspiders.trans ((h₃.trans h₄.inherits).trans h₅).twists
  · exact Ends.pure_iff.mpr hspiders

theorem swapOutputs_inherits (g : Diagram) (q₀ q₁ : ℕ) :
    Ends (g.swapOutputs q₀ q₁) (Inherits g) fun _ => True := by
  unfold swapOutputs
  split
  · rename_i o₀ o₁ _ _
    have houtputs : Inherits g { g with outputs := (g.outputs.set q₀ o₁).set q₁ o₀ } :=
      .of_data?_eq (fun _ => rfl) rfl
    refine (setQubit_edited _ o₁ _).forget.bind fun g₁ h₁ => ?_
    exact (setQubit_edited g₁ o₀ _).forget.imp fun _ h₂ =>
      (houtputs.trans (h₁.inherits (fun _ => rfl) fun _ => rfl)).trans
        (h₂.inherits (fun _ => rfl) fun _ => rfl)
  · exact Ends.pure_iff.mpr (.refl g)

/-- A gate that is one spider. -/
theorem addSpider_twists {gate : Gate} (g : Diagram) (k : VertexKind)
    (hphase : (gate.spiderPhase.getD Phase.zero).isClifford = Circuit.isCliffordGate gate) :
    Ends (do
      let (v, g) ← g.extendWire (← at? gate.qubits 0) k .plain (gate.spiderPhase.getD Phase.zero)
      return (v.toList, g))
      (fun r => Twists (if Circuit.isCliffordGate gate then 0 else 1) g r.2) fun _ => True := by
  refine (Ends.result _).bind fun q _ => ?_
  refine (extendWire_twists g q k .plain _).bind fun r hr => Ends.pure_iff.mpr ?_
  rwa [hphase] at hr

theorem addBasicGate_twists (g : Diagram) (gate : Gate) :
    Ends (g.addBasicGate gate)
      (fun r => Twists (if Circuit.isCliffordGate gate then 0 else 1) g r.2) fun _ => True := by
  obtain ⟨kind, qubits, phase⟩ := gate
  have hclifford {g' : Diagram} {n : ℕ} (h : Twists 0 g g') : Twists n g g' :=
    Nat.le_trans h (Nat.le_add_right _ _)
  cases kind with
  | zPhase | z | s | sdg | t | tdg => exact addSpider_twists g .z rfl
  | xPhase | not => exact addSpider_twists g .x rfl
  | had =>
      refine (Ends.result _).bind fun q _ => ?_
      exact (extendWire_twists g q .z .hadamard Phase.zero).bind fun r hr => Ends.pure_iff.mpr hr
  | cnot => exact (addPair_twists g qubits .x .plain).imp fun _ => hclifford
  | cz => exact (addPair_twists g qubits .z .hadamard).imp fun _ => hclifford
  | swap =>
      refine (Ends.result _).bind fun q₀ _ => (Ends.result _).bind fun q₁ _ => ?_
      exact (swapOutputs_inherits g q₀ q₁).bind fun g' h =>
        Ends.pure_iff.mpr h.twists
  | ccz | toffoli | unknown => exact Ends.pure_iff.mpr (hclifford (Nat.le_refl _))

theorem addBasicGates_twists (g : Diagram) (gates : List Gate) :
    Ends (gates.foldlM (fun g piece => return (← g.addBasicGate piece).2) g)
      (Twists (gates.countP fun gate => !Circuit.isCliffordGate gate) g) fun _ => True := by
  induction gates generalizing g with
  | nil => exact Ends.pure_iff.mpr (Nat.le_refl _)
  | cons gate gates ih =>
      rw [List.foldlM_cons]
      refine Ends.bind ((addBasicGate_twists g gate).bind fun r hr => Ends.pure_iff.mpr hr)
        fun g₁ h₁ => (ih g₁).imp fun g₂ h₂ => ?_
      rw [List.countP_cons, Nat.add_comm]
      convert h₁.trans h₂ using 2
      cases Circuit.isCliffordGate gate <;> rfl

/-- A gate is drawn by its pieces, of which a basic gate has one. -/
theorem addGate_cases (g : Diagram) (gate : Gate) :
    (g.addGate gate = g.addBasicGate gate ∧ gate.basicGates = .ok [gate]) ∨
      g.addGate gate = (do
        let g ← (← gate.basicGates).foldlM (fun g piece => return (← g.addBasicGate piece).2) g
        return ([], g)) := by
  by_cases hcompound : gate.kind = .ccz ∨ gate.kind = .toffoli
  · right
    unfold addGate
    obtain hkind | hkind := hcompound
    · rw [hkind]
    · rw [hkind]
  · left
    constructor
    · unfold addGate
      split <;> simp_all
    · unfold Gate.basicGates
      split <;> simp_all
      rfl

theorem addGate_twists (g : Diagram) (gate : Gate) :
    Ends (g.addGate gate) (fun r => ∃ pieces, gate.basicGates = .ok pieces ∧
      Twists (pieces.countP fun piece => !Circuit.isCliffordGate piece) g r.2) fun _ => True := by
  obtain ⟨hadd, hbasic⟩ | hadd := g.addGate_cases gate
  · rw [hadd]
    refine (addBasicGate_twists g gate).imp fun r hr => ⟨[gate], hbasic, ?_⟩
    rw [List.countP_singleton]
    convert hr using 1
    cases Circuit.isCliffordGate gate <;> rfl
  · rw [hadd]
    refine (Ends.result _).bind fun pieces hpieces => ?_
    exact (addBasicGates_twists g pieces).bind fun g' h => Ends.pure_iff.mpr ⟨pieces, hpieces, h⟩

/-! ## Circuits -/

theorem addBoundaries_twisted (g : Diagram) (n : ℕ) (x : Float) :
    Ends (g.addBoundaries n x) (fun r => r.2.twisted ⊆ g.twisted) fun _ => True := by
  refine Ends.foldlM_mem (fun q _ r hr => ?_) (Subset.refl _)
  exact (addVertex_twisted r.2 (.inl rfl)).bind fun r' hr' => Ends.pure_iff.mpr (hr'.trans hr)

theorem wires_twists (n : ℕ) :
    Ends (wires n) (fun g => g.nonCliffordCount = 0) fun _ => True := by
  refine (Ends.result _).bind fun _ _ => ?_
  refine (addBoundaries_twisted empty n 0).bind fun r₁ h₁ => ?_
  refine (addBoundaries_twisted r₁.2 n 1).bind fun r₂ h₂ => ?_
  refine Ends.bind (P := KeepsTwists r₂.2) ?_ fun g h => Ends.pure_iff.mpr ?_
  · exact foldlM_keepsTwists (fun g l _ => (addEdge_relinked g l.1 l.2 .plain).forget.imp
      fun _ h => .of_inherits h.inherits) _
  · rw [← card_twisted, card_eq_zero, ← subset_empty]
    exact (h.trans (.of_data?_eq fun _ => rfl)).subset.trans (h₂.trans h₁)

end Diagram

theorem Circuit.toDiagram_count (c : Circuit) :
    Ends c.toDiagram (fun g => ∃ basic, c.toBasic = .ok basic ∧
      g.nonCliffordCount ≤ basic.stats.nonClifford) fun _ => True := by
  refine Ends.bind (Diagram.wires_twists c.width) fun g₀ h₀ => ?_
  refine Ends.bind (P := fun g => ∃ pieces, c.gates.mapM Gate.basicGates = .ok pieces ∧
    g.nonCliffordCount ≤ pieces.flatten.countP fun gate => !isCliffordGate gate) ?_ ?_
  · refine Ends.foldlM_done (I := fun done (g : Diagram) => ∃ pieces,
      done.mapM Gate.basicGates = .ok pieces ∧
      g.nonCliffordCount ≤ pieces.flatten.countP fun gate => !isCliffordGate gate) ?_
      ⟨[], rfl, h₀.le⟩
    rintro done gate rest g - ⟨pieces, hpieces, hle⟩
    refine (g.addGate_twists gate).bind fun r hr => Ends.pure_iff.mpr ?_
    obtain ⟨new, hnew, htwists⟩ := hr
    refine ⟨pieces ++ [new], ?_, ?_⟩
    · rw [List.mapM_append, hpieces, List.mapM_cons, hnew]
      rfl
    · rw [List.flatten_append, List.countP_append, List.flatten_singleton]
      exact Nat.le_trans htwists (Nat.add_le_add_right hle _)
  · rintro g ⟨pieces, hpieces, hle⟩
    refine (g.mulPhase_keepsTwists c.globalPhase).imp fun D hD => ?_
    refine ⟨{ c with gates := pieces.flatten }, ?_, hD.count_le.trans hle⟩
    rw [toBasic, hpieces]
    rfl

end ZX
