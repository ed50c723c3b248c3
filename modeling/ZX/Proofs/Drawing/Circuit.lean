import Mathlib
import ZX.Proofs.Arena.Refinement
import ZX.Proofs.Clifford.Drawing
import ZX.Proofs.Decomposition
import ZX.Proofs.Drawing.Wires

/-!
# The diagram of a circuit

Plain wires denote the identity, every gate adds its own operator behind what is there, and the
global phase goes into the scalar. So the diagram of a circuit denotes the map of the circuit, and
its scalar, its vertices and its edges count the basic gates.

Where there is no diagram, the counts say why: the slots do not hold the vertices, or the word of the
exponent does not hold the number of controlled gates.
-/
namespace ZX

open Finset Function State

/-- The number of gates on one qubit. -/
def singleCount (gates : List Gate) : ℕ := gates.countP fun gate => gate.kind.arity = some 1

/-- The number of controlled gates on two qubits, each of which costs a factor `sqrt(2)`. -/
def pairCount (gates : List Gate) : ℕ := gates.countP (·.kind = .cnot) + gates.countP (·.kind = .cz)

theorem singleCount_append (gates gates' : List Gate) :
    singleCount (gates ++ gates') = singleCount gates + singleCount gates' :=
  List.countP_append

theorem pairCount_append (gates gates' : List Gate) :
    pairCount (gates ++ gates') = pairCount gates + pairCount gates' := by
  simp only [pairCount, List.countP_append]
  omega

namespace Gate.Fits

variable {gate : Gate} {k : ℕ}

theorem exists_single (h : gate.Fits k) (harity : gate.kind.arity = some 1) :
    ∃ q, gate.qubits = [q] ∧ q < k := by
  obtain ⟨hlength, -, hlt⟩ := h 1 harity
  obtain ⟨q, hq⟩ := List.length_eq_one_iff.mp hlength
  exact ⟨q, hq, hlt q (by simp [hq])⟩

theorem exists_pair (h : gate.Fits k) (harity : gate.kind.arity = some 2) :
    ∃ q₁ q₂, gate.qubits = [q₁, q₂] ∧ q₁ ≠ q₂ ∧ q₁ < k ∧ q₂ < k := by
  obtain ⟨hlength, hnodup, hlt⟩ := h 2 harity
  obtain ⟨q₁, q₂, hqs⟩ := List.length_eq_two.mp hlength
  exact ⟨q₁, q₂, hqs, by simpa [hqs] using hnodup, hlt q₁ (by simp [hqs]), hlt q₂ (by simp [hqs])⟩

end Gate.Fits

/-- The basic gates of a circuit. -/
def Circuit.pieces (c : Circuit) : List Gate := c.gates.flatMap Gate.pieces

/-- The vertices of its diagram: two ends for every qubit, one spider for a gate on one qubit and two
for a controlled gate. -/
def Circuit.drawnSize (c : Circuit) : ℕ :=
  2 * c.width + (singleCount c.pieces + 2 * pairCount c.pieces)

namespace Diagram

variable {g g' : Diagram} {q u v : ℕ} {k : VertexKind} {wire : EdgeKind} {p : Phase}
  {gate : Gate} {x : ℕ → Bool} {n : ℕ}

/-! ## Gates -/

theorem extendWire_draws (hg : g.Drawn) (hq : q < g.outputs.length) (hk : k ≠ .boundary)
    (wire : EdgeKind) (p : Phase) {A : State → State}
    (hA : ∀ ψ, cross (EdgeKind.plain.tint (k = .x)) q
      (rotate p.unit q (cross (wire.tint (k = .x)) q ψ)) = A ψ) :
    Ends (do
        let (v, g) ← g.extendWire q k wire p
        return (v.toList, g))
      (fun r => Draws g 1 0 A r.2) (g.Exceeds 1 0) := by
  refine ((extendWire_extended hg.toWellFormed (List.getElem?_eq_getElem hq) k wire p).mono
    (fun _ h => h) fun f hf => .inr ⟨hf.1, by omega⟩).bind ?_
  rintro ⟨_, g'⟩ ⟨rfl, out, h⟩
  exact Ends.pure_iff.mpr ((h.draws hg hk).congr hA)

theorem addBasicGate_draws (hg : g.Drawn) (hfits : gate.Fits g.outputs.length)
    (hbasic : gate.IsBasic) (hpow : 0 ≤ g.scalar.sqrt2Pow) :
    Ends (g.addBasicGate gate)
      (fun r => Draws g (singleCount [gate]) (pairCount [gate]) gate.act r.2)
      (g.Exceeds (singleCount [gate]) (pairCount [gate])) := by
  obtain ⟨kind, qubits, phase⟩ := gate
  have hz : VertexKind.z ≠ .boundary := by decide
  have hx : VertexKind.x ≠ .boundary := by decide
  have hid : ∀ q (ψ : State), rotate 1 q ψ = ψ := by
    intro q ψ
    funext z
    rw [rotate, weigh, spin_one, one_mul]
  have hgreen : ∀ q (ω : ℂ) (ψ : State),
      cross (EdgeKind.plain.tint (VertexKind.z = .x)) q
        (rotate ω q (cross (EdgeKind.plain.tint (VertexKind.z = .x)) q ψ)) = rotate ω q ψ := by
    intro q ω ψ
    show cross .plain q (rotate ω q (cross .plain q ψ)) = _
    rw [cross_plain, cross_plain]
  cases kind with
  | zPhase =>
      obtain ⟨q, rfl, hq⟩ := hfits.exists_single rfl
      exact extendWire_draws hg hq hz .plain phase (hgreen q _)
  | z =>
      obtain ⟨q, rfl, hq⟩ := hfits.exists_single rfl
      refine extendWire_draws hg hq hz .plain Phase.one fun ψ => ?_
      rw [hgreen, Phase.unit_one]
      rfl
  | s =>
      obtain ⟨q, rfl, hq⟩ := hfits.exists_single rfl
      refine extendWire_draws hg hq hz .plain Phase.quarter fun ψ => ?_
      rw [hgreen, Phase.unit_quarter]
      rfl
  | sdg =>
      obtain ⟨q, rfl, hq⟩ := hfits.exists_single rfl
      refine extendWire_draws hg hq hz .plain Phase.negQuarter fun ψ => ?_
      rw [hgreen, Phase.unit_negQuarter]
      rfl
  | t =>
      obtain ⟨q, rfl, hq⟩ := hfits.exists_single rfl
      exact extendWire_draws hg hq hz .plain Phase.eighth (hgreen q _)
  | tdg =>
      obtain ⟨q, rfl, hq⟩ := hfits.exists_single rfl
      exact extendWire_draws hg hq hz .plain Phase.negEighth (hgreen q _)
  | xPhase =>
      obtain ⟨q, rfl, hq⟩ := hfits.exists_single rfl
      exact extendWire_draws hg hq hx .plain phase fun ψ => rfl
  | not =>
      obtain ⟨q, rfl, hq⟩ := hfits.exists_single rfl
      refine extendWire_draws hg hq hx .plain Phase.one fun ψ => ?_
      have hflip := hadamard_flip (t := q) (s := fun _ => true) (fun _ _ => rfl) ψ
      simp only [Bool.true_and, ← spin_neg_one] at hflip
      rw [Phase.unit_one]
      exact hflip
  | had =>
      obtain ⟨q, rfl, hq⟩ := hfits.exists_single rfl
      refine extendWire_draws hg hq hz .hadamard Phase.zero fun ψ => ?_
      rw [Phase.unit_zero, hid]
      exact cross_plain q _
  | cnot =>
      obtain ⟨c, t, rfl, hct, hc, ht⟩ := hfits.exists_pair rfl
      refine (addPair_draws hg hc ht hct hx rfl hpow).imp fun r hr => hr.congr fun ψ => ?_
      exact hadamard_flip (s := fun z => z c) (fun z b => update_of_ne hct _ _) ψ
  | cz =>
      obtain ⟨c, t, rfl, hct, hc, ht⟩ := hfits.exists_pair rfl
      refine (addPair_draws hg hc ht hct hz rfl hpow).imp fun r hr => hr.congr fun ψ => ?_
      show cross .plain t (weigh _ (cross .plain t ψ)) = _
      rw [cross_plain, cross_plain]
      rfl
  | swap =>
      obtain ⟨c, t, rfl, hct, hc, ht⟩ := hfits.exists_pair rfl
      obtain ⟨g', hok, h⟩ := swapOutputs_draws hg hc ht hct
      show Ends (do return ([], ← g.swapOutputs c t)) _ _
      rw [hok]
      exact Ends.ok_iff.mpr h
  | ccz => exact absurd rfl hbasic.1
  | toffoli => exact absurd rfl hbasic.2
  | unknown => exact Ends.ok_iff.mpr (.refl hg)

/-- What is too much behind some gates is too much with them. -/
theorem Exceeds.behind {a b a' b' : ℕ} {A : State → State} {f : Fault} (hf : g'.Exceeds a' b' f)
    (h : Draws g a b A g') : g.Exceeds (a + a') (b + b') f := by
  unfold Exceeds at hf ⊢
  rw [h.scalar_eq, h.vertexCount_eq] at hf
  push_cast at hf ⊢
  exact hf.imp (fun ⟨he, hle⟩ => ⟨he, by linarith⟩) fun ⟨he, hlt⟩ => ⟨he, by linarith⟩

theorem Exceeds.mono {a b a' b' : ℕ} {f : Fault} (hf : g.Exceeds a b f) (ha : a ≤ a') (hb : b ≤ b') :
    g.Exceeds a' b' f :=
  hf.imp (fun ⟨he, hle⟩ => ⟨he, by omega⟩) fun ⟨he, hlt⟩ => ⟨he, by omega⟩

/-- The elements of a list are drawn one behind the other, each by basic gates. Each finds a diagram
of the same width, with the exponent that those before it have left. -/
theorem Draws.foldlM {α : Type} {step : Diagram → α → Except Fault Diagram} {pieces : α → List Gate}
    {A : α → State → State} {l : List α}
    (hstep : ∀ a ∈ l, ∀ g' : Diagram, g'.Drawn → g'.outputs.length = g.outputs.length →
      0 ≤ g'.scalar.sqrt2Pow → Ends (step g' a)
        (Draws g' (singleCount (pieces a)) (pairCount (pieces a)) (A a))
        (g'.Exceeds (singleCount (pieces a)) (pairCount (pieces a))))
    (hg : g.Drawn) (hpow : 0 ≤ g.scalar.sqrt2Pow) :
    Ends (l.foldlM step g)
      (Draws g (singleCount (l.flatMap pieces)) (pairCount (l.flatMap pieces))
        (fun ψ => l.foldl (fun ψ a => A a ψ) ψ))
      (g.Exceeds (singleCount (l.flatMap pieces)) (pairCount (l.flatMap pieces))) := by
  refine Ends.foldlM_done (l := l) (I := fun done => Draws g (singleCount (done.flatMap pieces))
    (pairCount (done.flatMap pieces)) (fun ψ => done.foldl (fun ψ a => A a ψ) ψ)) ?_ (.refl hg)
  intro done a rest g' hsplit h
  have hpow' : g'.scalar.sqrt2Pow = g.scalar.sqrt2Pow + pairCount (done.flatMap pieces) := by
    rw [h.scalar_eq]
  have hdone : (done ++ [a]).flatMap pieces = done.flatMap pieces ++ pieces a := by simp
  refine (hstep a (by simp [hsplit]) g' h.drawn h.length_outputs (by omega)).mono ?_ ?_
  · intro g'' h'
    rw [hdone, singleCount_append, pairCount_append]
    simpa [List.foldl_append] using h.trans h'
  · intro f hf
    refine (hf.behind h).mono ?_ ?_
    · rw [hsplit, List.flatMap_append, List.flatMap_cons, singleCount_append, singleCount_append]
      omega
    · rw [hsplit, List.flatMap_append, List.flatMap_cons, pairCount_append, pairCount_append]
      omega

theorem addBasicGates_draws {pieces : List Gate}
    (hpieces : ∀ piece ∈ pieces, piece.Fits g.outputs.length ∧ piece.IsBasic) (hg : g.Drawn)
    (hpow : 0 ≤ g.scalar.sqrt2Pow) :
    Ends (pieces.foldlM (fun g piece => return (← g.addBasicGate piece).2) g)
      (Draws g (singleCount pieces) (pairCount pieces) (actAll pieces))
      (g.Exceeds (singleCount pieces) (pairCount pieces)) := by
  have hstep : ∀ piece ∈ pieces, ∀ g' : Diagram, g'.Drawn →
      g'.outputs.length = g.outputs.length → 0 ≤ g'.scalar.sqrt2Pow →
      Ends (do return (← g'.addBasicGate piece).2 : Except Fault Diagram)
        (Draws g' (singleCount [piece]) (pairCount [piece]) piece.act)
        (g'.Exceeds (singleCount [piece]) (pairCount [piece])) := by
    intro piece hpiece g' hg' hlength hpow'
    obtain ⟨hfits, hbasic⟩ := hpieces piece hpiece
    exact (addBasicGate_draws hg' (hlength ▸ hfits) hbasic hpow').bind fun r hr =>
      Ends.pure_iff.mpr hr
  have h := Draws.foldlM hstep hg hpow
  rwa [List.flatMap_singleton'] at h

theorem addGate_draws (hg : g.Drawn) (hfits : gate.Fits g.outputs.length)
    (hpow : 0 ≤ g.scalar.sqrt2Pow) :
    Ends (g.addGate gate)
      (fun r => Draws g (singleCount gate.pieces) (pairCount gate.pieces) gate.act r.2)
      (g.Exceeds (singleCount gate.pieces) (pairCount gate.pieces)) := by
  have hpieces := gate.pieces_fit hfits
  obtain ⟨hrun, hbasic⟩ | hrun := g.addGate_cases gate
  · rw [Gate.pieces_eq hbasic] at hpieces ⊢
    rw [hrun]
    exact addBasicGate_draws hg hfits (hpieces gate (List.mem_singleton_self gate)).2 hpow
  · rw [hrun, gate.basicGates_eq hfits]
    exact (addBasicGates_draws hpieces hg hpow).bind fun g' h =>
      Ends.pure_iff.mpr (h.congr (gate.actAll_pieces hfits))

/-! ## Circuits -/

/-- A rigid diagram of the map of a circuit, with at most the vertices that drawing it takes. -/
structure Realises (g : Diagram) (c : Circuit) : Prop where
  wellFormed : g.WellFormed
  length_inputs : g.inputs.length = c.width
  length_outputs : g.outputs.length = c.width
  amplitude_eq : ∀ x y, g.amplitude x y = c.amplitude c.width x y
  rigid : g.Rigid
  vertexCount_le : g.vertexCount ≤ c.drawnSize

/-- What the diagram of a circuit is. -/
structure Depicts (g : Diagram) (c : Circuit) : Prop extends g.Realises c where
  scalar_eq : g.scalar = ⟨(pairCount c.pieces : ℕ), c.globalPhase⟩
  bounded : pairCount c.pieces < 2 ^ 31
  vertexCount_eq : g.vertexCount = c.drawnSize
  storable : g.vertexCount ≤ 2 ^ 57
  edgeCount_eq : g.edgeCount = c.width + (singleCount c.pieces + 3 * pairCount c.pieces)
  ruled : g.Ruled

theorem image_withScalar {r : Scalar} {c : ℂ} (hr : r.value = c * g.scalar.value) (ω : ℕ → ℂ)
    (x : ℕ → Bool) : image { g with scalar := r } ω x = c • g.image ω x := by
  refine Eq.trans ?_ (readout_const c)
  refine congrArg (readout g.spiders g.inputs g.outputs x) (funext fun a => ?_)
  show mass { g with scalar := r } g.support (g.restrain ω) a =
    c * g.mass g.support (g.restrain ω) a
  rw [mul_comm]
  exact mass_mul_scalar hr fun _ _ => rfl

theorem toDiagram_ends (c : Circuit) (hfits : ∀ gate ∈ c.gates, gate.Fits c.width) :
    Ends c.toDiagram (fun g => g.Depicts c)
      (fun f => f = .overflow ∧ 2 ^ 31 ≤ pairCount c.pieces ∨
        f = .tooLarge ∧ 2 ^ 57 < c.drawnSize) := by
  refine ((wires_blank c.width).mono (fun _ h => h) fun f hf =>
    .inr ⟨hf.1, Nat.lt_add_right _ hf.2⟩).bind fun blank hblank => ?_
  have hzero : blank.scalar.sqrt2Pow = 0 := by rw [hblank.scalar_eq]; rfl
  refine Ends.bind (P := Draws blank (singleCount c.pieces) (pairCount c.pieces) (actAll c.gates))
    ((Draws.foldlM (A := Gate.act) ?_ hblank.drawn hzero.ge).mono (fun _ h => h) ?_) ?_
  · intro gate hgate g' hg' hlength hpow
    have hfit : gate.Fits g'.outputs.length := by
      rw [hlength, hblank.length_outputs]
      exact hfits gate hgate
    exact (addGate_draws hg' hfit hpow).bind fun r hr => Ends.pure_iff.mpr hr
  · intro f hf
    unfold Exceeds at hf
    rw [hzero, hblank.vertexCount_eq, zero_add] at hf
    exact hf.imp (fun ⟨he, hle⟩ => ⟨he, by exact_mod_cast hle⟩) id
  · intro g h
    have hscalar : g.scalar = ⟨(pairCount c.pieces : ℕ), Phase.zero⟩ := by
      rw [h.scalar_eq, hblank.scalar_eq]
      simp [Scalar.one]
    have hbound := h.bounded (by omega)
    rw [mulPhase, Scalar.mulPhase, hscalar, Phase.Arithmetic.words_add, Phase.add_of_zero]
    refine Ends.ok_iff.mpr ?_
    set g' : Diagram := { g with scalar := ⟨(pairCount c.pieces : ℕ), c.globalPhase⟩ } with hg'
    have hvalue : g'.scalar.value = c.globalPhase.unit * g.scalar.value := by
      rw [hscalar, hg', Scalar.value, Scalar.value, Phase.unit_zero]
      ring
    have himage : ∀ ω x, g'.image ω x = c.globalPhase.unit • g.image ω x := fun ω x =>
      image_withScalar hvalue ω x
    have hlength : g.outputs.length = c.width := h.length_outputs.trans hblank.length_outputs
    have hwf := h.drawn.toWellFormed
    have hcount : g.vertexCount = c.drawnSize := by
      rw [h.vertexCount_eq, hblank.vertexCount_eq, Circuit.drawnSize]
    refine ⟨⟨?wellFormed, ?length_inputs, ?length_outputs, ?amplitude_eq, ?rigid, hcount.le⟩, rfl,
      ?bounded, hcount, ?storable, ?edgeCount_eq, ?ruled⟩
    case wellFormed =>
      exact ⟨hwf.toConsistent.congr (fun _ => rfl) (fun _ => rfl) rfl rfl rfl rfl, hwf.mem_ends,
        hwf.nodup_ends, hwf.boundary_phase, hwf.boundary_degree⟩
    case length_inputs =>
      show g.inputs.length = c.width
      rw [h.inputs_eq, hblank.length_inputs]
    case length_outputs => exact hlength
    case bounded =>
      rw [hscalar] at hbound
      dsimp only at hbound
      omega
    case storable => exact hwf.toConsistent.vertexCount_le.trans (h.size_le hblank.size_le)
    case edgeCount_eq =>
      refine h.edgeCount_eq.trans ?_
      rw [hblank.edgeCount_eq]
    case ruled =>
      obtain ⟨hin, hout⟩ := h.ruled hblank.ruled
      exact ⟨hin, hout⟩
    case amplitude_eq =>
      intro x y
      rw [← image_turn, himage, show g'.turn = g.turn from rfl, h.image_turn, hblank.image_eq]
      rfl
    case rigid =>
      intro ω hω
      obtain ⟨A, hA, himageA⟩ := h.exists_local ω hω
      have hphase : Local (List.range blank.outputs.length)
          (weigh fun _ => c.globalPhase.unit) :=
        .weigh (fun _ _ _ => rfl) fun _ => Phase.norm_unit _
      rw [show g'.outputs.length = blank.outputs.length from h.length_outputs]
      refine ⟨_, hphase.comp hA, fun x => ?_⟩
      rw [himage, himageA, hblank.image_eq, hblank.length_outputs]
      rfl

theorem Ruled.qubit_input (h : g.Ruled) (hv : g.inputs[q]? = some v) :
    g.qubit v = .ok (Float.ofNat q) :=
  qubit_eq_ok.mpr (Option.map_eq_some_iff.mp (h.input_line hv))

theorem Ruled.qubit_output (h : g.Ruled) (hv : g.outputs[q]? = some v) :
    g.qubit v = .ok (Float.ofNat q) :=
  qubit_eq_ok.mpr (Option.map_eq_some_iff.mp (h.output_line hv))

end Diagram

open Diagram

namespace Circuit

variable {c : Circuit}

/-- Whether there is a diagram depends on two numbers. -/
theorem toDiagram_cases (hfits : ∀ gate ∈ c.gates, gate.Fits c.width) {P : Diagram → Prop}
    (hP : ∀ g, g.Depicts c → P g) :
    if 2 ^ 57 < c.drawnSize then
      c.toDiagram = .error .tooLarge ∨ 2 ^ 31 ≤ pairCount c.pieces ∧ c.toDiagram = .error .overflow
    else if 2 ^ 31 ≤ pairCount c.pieces then c.toDiagram = .error .overflow
    else ∃ g, c.toDiagram = .ok g ∧ P g := by
  have hends := toDiagram_ends c hfits
  cases hrun : c.toDiagram with
  | ok g =>
      have hg := hends.of_eq_ok hrun
      have hsize := hg.vertexCount_eq ▸ hg.storable
      rw [if_neg (by omega), if_neg (by have := hg.bounded; omega)]
      exact ⟨g, rfl, hP g hg⟩
  | error f =>
      rcases hends.2 f hrun with ⟨rfl, hpairs⟩ | ⟨rfl, hsize⟩
      · rw [if_pos hpairs]
        split
        · exact .inr ⟨hpairs, rfl⟩
        · rfl
      · rw [if_pos hsize]
        exact .inl rfl

/-- A circuit is drawn unless its diagram has more vertices than the slots can hold, or so many
controlled gates that the exponent of `sqrt(2)` does not fit its word. -/
theorem toDiagram_denotes (c : Circuit) (hfits : ∀ gate ∈ c.gates, gate.Fits c.width) :
    ∃ basic, c.toBasic = .ok basic ∧
      if 2 ^ 57 < 2 * c.width + (singleCount basic.gates +
          2 * (basic.countKind .cnot + basic.countKind .cz)) then
        c.toDiagram = .error .tooLarge ∨
          2 ^ 31 ≤ basic.countKind .cnot + basic.countKind .cz ∧ c.toDiagram = .error .overflow
      else if 2 ^ 31 ≤ basic.countKind .cnot + basic.countKind .cz then
        c.toDiagram = .error .overflow
      else ∃ g, c.toDiagram = .ok g ∧ g.WellFormed ∧ g.inputs.length = c.width ∧
        g.outputs.length = c.width ∧
        g.scalar = ⟨(basic.countKind .cnot + basic.countKind .cz : ℕ), c.globalPhase⟩ ∧
        ∀ x y, g.amplitude x y = c.amplitude c.width x y := by
  refine ⟨{ c with gates := c.pieces }, toBasic_eq hfits, ?_⟩
  exact toDiagram_cases hfits fun g hg =>
    ⟨hg.wellFormed, hg.length_inputs, hg.length_outputs, hg.scalar_eq, hg.amplitude_eq⟩

/-- A carry on a qubit in superposition, with a gate that nobody knows. -/
def carry : Circuit :=
  ⟨3, Phase.eighth, [.plain .had [0], .plain .toffoli [0, 1, 2], .plain .unknown [7]]⟩

theorem toBasic_carry :
    carry.toBasic = .ok ⟨3, Phase.eighth, .plain .had [0] :: .plain .had [2] ::
      Gate.cczNetwork 0 1 2 ++ [.plain .had [2], .plain .unknown [7]]⟩ :=
  rfl

theorem toDiagram_denotes_carry :
    ∃ g, carry.toDiagram = .ok g ∧ g.scalar = ⟨6, Phase.eighth⟩ ∧
      ∀ x y, g.amplitude x y = carry.amplitude 3 x y := by
  obtain ⟨basic, hbasic, h⟩ := toDiagram_denotes carry (by decide)
  obtain rfl := Except.ok.inj (toBasic_carry.symm.trans hbasic)
  rw [if_neg (by decide), if_neg (by decide)] at h
  obtain ⟨g, hok, -, -, -, hscalar, hamplitude⟩ := h
  exact ⟨g, hok, hscalar, hamplitude⟩

/-- Plain wires need no controlled gate, so only their ends can be too many. -/
theorem toDiagram_empty_tooLarge {n : ℕ} (h : 2 ^ 57 < 2 * n) :
    (empty n).toDiagram = .error .tooLarge := by
  have hcases := toDiagram_cases (c := empty n) (by simp [empty]) fun _ hg => hg
  have hsize : 2 ^ 57 < (empty n).drawnSize := Nat.lt_add_right _ h
  rw [if_pos hsize] at hcases
  have hpairs : pairCount (empty n).pieces = 0 := rfl
  exact hcases.resolve_right fun h => absurd h.1 (by omega)

/-- No diagram denotes plain wires on `2^60` qubits, whose ends would need `2^61` slots. -/
theorem toDiagram_undrawn_wide :
    (∀ gate ∈ (empty (2 ^ 60)).gates, gate.Fits (empty (2 ^ 60)).width) ∧
      ¬∃ g, (empty (2 ^ 60)).toDiagram = .ok g ∧
        ∀ x y, g.amplitude x y = (empty (2 ^ 60)).amplitude (2 ^ 60) x y := by
  refine ⟨by simp [empty], ?_⟩
  rintro ⟨g, hok, -⟩
  rw [toDiagram_empty_tooLarge (by decide)] at hok
  cases hok

/-- The diagram of a circuit is well formed, has the ends of every qubit on the line of the qubit,
and has as many vertices and edges as the basic gates of the circuit ask for. There is no diagram
only where there are too many vertices for the slots, or too many controlled gates for the word of
the exponent. -/
theorem toDiagram_shape (c : Circuit) (hfits : ∀ gate ∈ c.gates, gate.Fits c.width) :
    ∃ basic, c.toBasic = .ok basic ∧
      if 2 ^ 57 < 2 * c.width + singleCount basic.gates +
          2 * (basic.countKind .cnot + basic.countKind .cz) then
        c.toDiagram = .error .tooLarge ∨
          2 ^ 31 ≤ basic.countKind .cnot + basic.countKind .cz ∧ c.toDiagram = .error .overflow
      else if 2 ^ 31 ≤ basic.countKind .cnot + basic.countKind .cz then
        c.toDiagram = .error .overflow
      else ∃ g, c.toDiagram = .ok g ∧ g.WellFormed ∧
        g.inputs.length = c.width ∧ g.outputs.length = c.width ∧
        (∀ q < c.width, ∃ i o, g.inputs[q]? = some i ∧ g.outputs[q]? = some o ∧
          g.qubit i = .ok (Float.ofNat q) ∧ g.qubit o = .ok (Float.ofNat q)) ∧
        g.vertexCount = g.vertices.length ∧ g.edgeCount = g.edges.length ∧
        g.vertices.length = 2 * c.width + singleCount basic.gates +
          2 * (basic.countKind .cnot + basic.countKind .cz) ∧
        g.edges.length = c.width + singleCount basic.gates +
          3 * (basic.countKind .cnot + basic.countKind .cz) := by
  refine ⟨{ c with gates := c.pieces }, toBasic_eq hfits, ?_⟩
  have hsum : c.drawnSize = 2 * c.width + singleCount c.pieces + 2 * pairCount c.pieces :=
    (Nat.add_assoc _ _ _).symm
  refine hsum ▸ toDiagram_cases hfits fun g hg => ?_
  have hcons := hg.wellFormed.toConsistent
  have hvertices : g.vertexCount = g.vertices.length :=
    hcons.vertexCount_eq.trans g.card_support
  have hedges : g.edgeCount = g.edges.length := hcons.length_edges.symm
  refine ⟨hg.wellFormed, hg.length_inputs, hg.length_outputs, ?lines, hvertices, hedges,
    ?vertices, ?edges⟩
  case lines =>
    intro q hq
    have hi := List.getElem?_eq_getElem (hg.length_inputs ▸ hq : q < g.inputs.length)
    have ho := List.getElem?_eq_getElem (hg.length_outputs ▸ hq : q < g.outputs.length)
    exact ⟨_, _, hi, ho, hg.ruled.qubit_input hi, hg.ruled.qubit_output ho⟩
  case vertices => exact hvertices.symm.trans hg.vertexCount_eq
  case edges =>
    rw [← hedges, hg.edgeCount_eq, Nat.add_assoc]
    rfl

/-- A carry is one Hadamard, and two Hadamards around a network of six controlled gates and seven
phases. -/
theorem toDiagram_shape_carry :
    ∃ g, carry.toDiagram = .ok g ∧ g.WellFormed ∧ g.vertices.length = 28 ∧ g.edges.length = 31 ∧
      ∃ o, g.outputs[2]? = some o ∧ g.qubit o = .ok 2 := by
  obtain ⟨basic, hbasic, h⟩ := toDiagram_shape carry (by decide)
  obtain rfl := Except.ok.inj (toBasic_carry.symm.trans hbasic)
  rw [if_neg (by decide), if_neg (by decide)] at h
  obtain ⟨g, hok, hwf, -, -, hlines, -, -, hvertices, hedges⟩ := h
  obtain ⟨-, o, -, ho, -, hline⟩ := hlines 2 (by decide)
  exact ⟨g, hok, hwf, hvertices, hedges, o, ho, hline⟩

/-- A register can be too wide to be drawn at all. -/
theorem toDiagram_fails_wide :
    (∀ gate ∈ (empty (2 ^ 60)).gates, gate.Fits (empty (2 ^ 60)).width) ∧
      (empty (2 ^ 60)).toDiagram = .error .tooLarge :=
  ⟨by simp [empty], toDiagram_empty_tooLarge (by decide)⟩

end Circuit

end ZX
