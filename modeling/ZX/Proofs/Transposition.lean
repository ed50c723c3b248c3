import Mathlib
import ZX.Proofs.Drawing.Network
import ZX.Proofs.Unitary

/-!
# Gates equal their transposes

The matrix of every gate is symmetric: a gate on one factor of a sum of products may as well stand on
the other factor. So the gates of a circuit in reverse order have the transposed matrix, and the
matrix of two circuits in a row is the product of their matrices.
-/
namespace ZX

open Finset Function

namespace State

variable {k q t : ℕ} {ψ : State} {A B : State → State} {x y : ℕ → Bool}

/-- The sum of the products over the bits of the first `k` qubits, with the bits `β` elsewhere. -/
noncomputable def dot (k : ℕ) (φ ψ : State) (β : ℕ → Bool) : ℂ :=
  sumOver (range k) (fun z => φ z * ψ z) β

theorem dot_comm (k : ℕ) (φ ψ : State) (β : ℕ → Bool) : dot k φ ψ β = dot k ψ φ β :=
  sumOver_congr fun _ _ => mul_comm _ _

/-- A ket reads off one amplitude. -/
theorem dot_ket (k : ℕ) (x : ℕ → Bool) (ψ : State) (β : ℕ → Bool) :
    dot k (ket k x) ψ β = ψ fun q => if q < k then x q else β q := by
  induction k generalizing ψ with
  | zero => simp [dot, ket]
  | succ k ih =>
      have hlast : dot (k + 1) (ket (k + 1) x) ψ β =
          dot k (ket k x) (fun z => ψ (update z k (x k))) β := by
        rw [dot, range_add_one, sumOver_insert notMem_range_self]
        refine sumOver_congr fun z _ => ?_
        rw [ket_succ_update, ket_succ_update]
        cases x k <;> simp
      rw [hlast, ih]
      refine congrArg ψ (funext fun q => ?_)
      by_cases hq : q = k
      · rw [hq, update_self, if_pos (Nat.lt_succ_self k)]
      · rw [update_of_ne hq]
        have hiff : q < k + 1 ↔ q < k := by omega
        simp only [hiff]

/-! ## Operators that may change sides -/

/-- The matrix of the operator on the first `k` qubits is symmetric. -/
def SelfTransposed (k : ℕ) (A : State → State) : Prop :=
  ∀ φ ψ β, dot k (A φ) ψ β = dot k φ (A ψ) β

theorem selfTransposed_id (k : ℕ) : SelfTransposed k id := fun _ _ _ => rfl

theorem selfTransposed_weigh (k : ℕ) (f : (ℕ → Bool) → ℂ) : SelfTransposed k (weigh f) := by
  intro φ ψ β
  refine sumOver_congr fun z _ => ?_
  simp only [weigh]
  ring

theorem selfTransposed_toggle {c : (ℕ → Bool) → Bool} (ht : t < k)
    (hc : ∀ z b, c (update z t b) = c z) : SelfTransposed k (shift (toggle t c)) := by
  intro φ ψ β
  rw [dot, dot, ← sumOver_toggle (mem_range.mpr ht) hc]
  simp only [shift, toggle_toggle hc]

theorem selfTransposed_hadamard (hq : q < k) : SelfTransposed k (hadamard q) := by
  intro φ ψ β
  rw [dot, dot, sumOver_split (mem_range.mpr hq), sumOver_split (mem_range.mpr hq)]
  refine sumOver_congr fun z _ => ?_
  simp only [hadamard, update_self, update_idem]
  rw [EdgeKind.factor_comm .hadamard true false]
  ring

theorem SelfTransposed.conj (hA : SelfTransposed k A) (hB : SelfTransposed k B) :
    SelfTransposed k fun ψ => A (B (A ψ)) := fun φ ψ β => by rw [hA, hB, hA]

theorem selfTransposed_exchange {a b : ℕ} (hab : a ≠ b) (ha : a < k) (hb : b < k) :
    SelfTransposed k (shift (exchange a b)) := by
  rw [funext (shift_exchange hab)]
  exact (selfTransposed_toggle hb fun z c => update_of_ne hab _ _).conj
    (selfTransposed_toggle ha fun z c => update_of_ne hab.symm _ _)

/-! ## States of the first qubits -/

/-- The amplitudes depend on the first `k` bits only. -/
def ReadsBelow (k : ℕ) (ψ : State) : Prop :=
  ∀ z z' : ℕ → Bool, (∀ q < k, z q = z' q) → ψ z = ψ z'

theorem readsBelow_ket (k : ℕ) (x : ℕ → Bool) : ReadsBelow k (ket k x) := by
  intro z z' h
  have hiff : (∀ q < k, z q = x q) ↔ ∀ q < k, z' q = x q :=
    forall₂_congr fun q hq => by rw [h q hq]
  simp only [ket, hiff]

theorem update_agree (h : ∀ q < k, x q = y q) (p : ℕ) (b : Bool) :
    ∀ q < k, update x p b q = update y p b q := by
  intro q hq
  by_cases hqp : q = p
  · rw [hqp, update_self, update_self]
  · rw [update_of_ne hqp, update_of_ne hqp, h q hq]

theorem Local.readsBelow {qs : List ℕ} (h : Local qs A) (hqs : ∀ q ∈ qs, q < k)
    (hψ : ReadsBelow k ψ) : ReadsBelow k (A ψ) := by
  induction h generalizing ψ with
  | id => exact hψ
  | weigh hf _ =>
      intro z z' hz
      rw [State.weigh, State.weigh, hψ z z' hz, hf z z' fun q hq => hz q (hqs q hq)]
  | @toggle t c ht hc =>
      intro z z' hz
      have hbit : c z = c z' := hc z z' fun q hq _ => hz q (hqs q hq)
      rw [shift, shift, State.toggle, State.toggle, hbit, hz t (hqs t ht)]
      exact hψ _ _ (update_agree hz t _)
  | @hadamard p hp =>
      intro z z' hz
      have hupdate : ∀ b, ψ (update z p b) = ψ (update z' p b) := fun b =>
        hψ _ _ (update_agree hz p b)
      rw [State.hadamard, State.hadamard, hupdate, hupdate, hz p (hqs p hp)]
  | comp _ _ ihA ihB => exact ihA (ihB hψ)

end State

/-! ## What gates do -/

/-- The ways in which gates act. -/
inductive GateSort where
  | diagonal
  | hadamard
  /-- A diagonal gate between Hadamards on the qubit at this place. -/
  | conjugated (place : ℕ)
  | exchange
  | idle
deriving DecidableEq

def GateKind.sort : GateKind → GateSort
  | .zPhase | .z | .s | .t | .sdg | .tdg | .cz | .ccz => .diagonal
  | .had => .hadamard
  | .not | .xPhase => .conjugated 0
  | .cnot => .conjugated 1
  | .toffoli => .conjugated 2
  | .swap => .exchange
  | .unknown => .idle

open State

/-- A phase `ω` where all the listed bits are 1. -/
def State.controlled (ω : ℂ) (qs : List ℕ) : State → State := weigh fun z => spin ω (qs.all z)

namespace Gate

variable {g : Gate} {k : ℕ}

/-- The phase that a gate puts on its qubits. -/
def angle (g : Gate) : Phase := g.spiderPhase.getD Phase.one

/-- The action of a gate by its sort. -/
inductive Performs (k : ℕ) (g : Gate) : Prop
  | diagonal (hsort : g.kind.sort = .diagonal) (hnodup : g.qubits.Nodup)
      (hlt : ∀ q ∈ g.qubits, q < k) (hact : g.act = controlled g.angle.unit g.qubits)
  | hadamard (q : ℕ) (hsort : g.kind.sort = .hadamard) (hqs : g.qubits = [q]) (hq : q < k)
      (hact : g.act = State.hadamard q)
  | conjugated (place q : ℕ) (hsort : g.kind.sort = .conjugated place) (hnodup : g.qubits.Nodup)
      (hlt : ∀ q ∈ g.qubits, q < k) (hq : g.qubits[place]? = some q)
      (hact : g.act = fun ψ =>
        State.hadamard q (controlled g.angle.unit g.qubits (State.hadamard q ψ)))
  | exchange (a b : ℕ) (hsort : g.kind.sort = .exchange) (hqs : g.qubits = [a, b]) (hab : a ≠ b)
      (ha : a < k) (hb : b < k) (hact : g.act = shift (State.exchange a b))
  | idle (hsort : g.kind.sort = .idle) (hact : g.act = id)

/-- Controlled negations are controlled phases between Hadamards. -/
theorem shift_toggle_eq {qs : List ℕ} {t : ℕ} (ht : t ∉ qs) :
    shift (toggle t qs.all) =
      fun ψ => State.hadamard t (controlled (-1) (qs ++ [t]) (State.hadamard t ψ)) := by
  have hignore : ∀ z b, qs.all (update z t b) = qs.all z := by
    intro z b
    rw [Bool.eq_iff_iff, List.all_eq_true, List.all_eq_true]
    exact forall₂_congr fun q hq => by rw [update_of_ne (ne_of_mem_of_not_mem hq ht)]
  funext ψ
  rw [← hadamard_flip hignore ψ]
  simp only [controlled, spin_neg_one, List.all_append, List.all_cons, List.all_nil, Bool.and_true]

theorem Performs.of_toggle (qs : List ℕ) {t : ℕ} {c : (ℕ → Bool) → Bool}
    (hsort : g.kind.sort = .conjugated qs.length) (hqs : g.qubits = qs ++ [t])
    (hangle : g.angle = Phase.one) (hnodup : g.qubits.Nodup) (hlt : ∀ q ∈ g.qubits, q < k)
    (hc : ∀ z, c z = qs.all z) (hact : g.act = shift (toggle t c)) : g.Performs k := by
  have ht : t ∉ qs := by
    rw [hqs, List.nodup_append] at hnodup
    exact fun hmem => hnodup.2.2 t hmem t (List.mem_singleton_self t) rfl
  refine .conjugated qs.length t hsort hnodup hlt (by simp [hqs]) ?_
  rw [hact, funext hc, shift_toggle_eq ht, hqs, hangle, Phase.unit_one]

theorem Fits.performs (h : g.Fits k) : g.Performs k := by
  obtain ⟨kind, qubits, phase⟩ := g
  cases kind with
  | zPhase | z | s | t | sdg | tdg =>
      obtain ⟨hlength, hnodup, hlt⟩ := h 1 rfl
      obtain ⟨q, rfl⟩ := List.length_eq_one_iff.mp hlength
      refine .diagonal rfl hnodup hlt ?_
      simp [act, controlled, rotate, angle, spiderPhase, Phase.unit_quarter, Phase.unit_negQuarter]
  | cz =>
      obtain ⟨hlength, hnodup, hlt⟩ := h 2 rfl
      obtain ⟨a, b, rfl⟩ := List.length_eq_two.mp hlength
      refine .diagonal rfl hnodup hlt ?_
      simp [act, controlled, angle, spiderPhase, spin]
  | ccz =>
      obtain ⟨hlength, hnodup, hlt⟩ := h 3 rfl
      obtain ⟨a, b, c, rfl⟩ := List.length_eq_three.mp hlength
      refine .diagonal rfl hnodup hlt ?_
      simp [act, controlled, angle, spiderPhase, spin, and_assoc]
  | had =>
      obtain ⟨hlength, -, hlt⟩ := h 1 rfl
      obtain ⟨q, rfl⟩ := List.length_eq_one_iff.mp hlength
      exact .hadamard q rfl rfl (hlt q (by simp)) rfl
  | xPhase =>
      obtain ⟨hlength, hnodup, hlt⟩ := h 1 rfl
      obtain ⟨q, rfl⟩ := List.length_eq_one_iff.mp hlength
      refine .conjugated 0 q rfl hnodup hlt rfl ?_
      simp [act, controlled, rotate, angle, spiderPhase]
  | not =>
      obtain ⟨hlength, hnodup, hlt⟩ := h 1 rfl
      obtain ⟨q, rfl⟩ := List.length_eq_one_iff.mp hlength
      exact .of_toggle [] rfl rfl rfl hnodup hlt (fun _ => rfl) rfl
  | cnot =>
      obtain ⟨hlength, hnodup, hlt⟩ := h 2 rfl
      obtain ⟨c, t, rfl⟩ := List.length_eq_two.mp hlength
      exact .of_toggle [c] rfl rfl rfl hnodup hlt (fun z => by simp) rfl
  | toffoli =>
      obtain ⟨hlength, hnodup, hlt⟩ := h 3 rfl
      obtain ⟨a, b, t, rfl⟩ := List.length_eq_three.mp hlength
      exact .of_toggle [a, b] rfl rfl rfl hnodup hlt (fun z => by simp) rfl
  | swap =>
      obtain ⟨hlength, hnodup, hlt⟩ := h 2 rfl
      obtain ⟨a, b, rfl⟩ := List.length_eq_two.mp hlength
      exact .exchange a b rfl rfl (by simpa using hnodup) (hlt a (by simp)) (hlt b (by simp)) rfl
  | unknown => exact .idle rfl (by simp [act])

theorem Fits.act_selfTransposed (h : g.Fits k) : SelfTransposed k g.act := by
  cases h.performs with
  | diagonal hsort hnodup hlt hact =>
      rw [hact]
      exact selfTransposed_weigh k _
  | hadamard q hsort hqs hq hact =>
      rw [hact]
      exact selfTransposed_hadamard hq
  | conjugated place q hsort hnodup hlt hq hact =>
      rw [hact]
      exact (selfTransposed_hadamard (hlt q (List.mem_of_getElem? hq))).conj
        (selfTransposed_weigh k _)
  | exchange a b hsort hqs hab ha hb hact =>
      rw [hact]
      exact selfTransposed_exchange hab ha hb
  | idle hsort hact =>
      rw [hact]
      exact selfTransposed_id k

theorem Fits.readsBelow {ψ : State} (h : g.Fits k) (hψ : ReadsBelow k ψ) :
    ReadsBelow k (g.act ψ) := by
  cases harity : g.kind.arity with
  | none =>
      have hunknown : g.kind = .unknown := by
        cases hk : g.kind <;> simp [hk, GateKind.arity] at harity ⊢
      have hact : g.act = id := by simp [act, hunknown]
      rwa [hact]
  | some n =>
      obtain ⟨-, hnodup, hlt⟩ := h n harity
      exact (g.act_local hnodup).readsBelow hlt hψ

end Gate

section Circuits

variable {gates gates' : List Gate} {k : ℕ}

theorem actAll_readsBelow (h : ∀ gate ∈ gates, gate.Fits k) {ψ : State} (hψ : ReadsBelow k ψ) :
    ReadsBelow k (actAll gates ψ) := by
  induction gates generalizing ψ with
  | nil => exact hψ
  | cons gate gates ih =>
      exact ih (fun g hg => h g (List.mem_cons_of_mem gate hg))
        ((h gate List.mem_cons_self).readsBelow hψ)

/-- Gates change sides in reverse order. -/
theorem dot_actAll (h : ∀ gate ∈ gates, gate.Fits k) (φ ψ : State) (β : ℕ → Bool) :
    dot k (actAll gates φ) ψ β = dot k φ (actAll gates.reverse ψ) β := by
  induction gates generalizing φ with
  | nil => rfl
  | cons gate gates ih =>
      rw [actAll_cons, ih fun g hg => h g (List.mem_cons_of_mem gate hg),
        (h gate List.mem_cons_self).act_selfTransposed, List.reverse_cons, actAll_append]
      rfl

/-- The gates in reverse order have the transposed matrix. -/
theorem actAll_reverse_ket (h : ∀ gate ∈ gates, gate.Fits k) (x y : ℕ → Bool) :
    actAll gates.reverse (ket k y) x = actAll gates (ket k x) y := by
  calc actAll gates.reverse (ket k y) x
      = dot k (ket k x) (actAll gates.reverse (ket k y)) x := by rw [dot_ket]; simp
    _ = dot k (ket k y) (actAll gates (ket k x)) x := by rw [← dot_actAll h, dot_comm]
    _ = actAll gates (ket k x) y := by
      rw [dot_ket]
      exact actAll_readsBelow h (readsBelow_ket k x) _ _ fun q hq => if_pos hq

/-- The matrix of two lists of gates in a row is the product of their matrices. -/
theorem actAll_append_ket (h : ∀ gate ∈ gates', gate.Fits k) (gates : List Gate) (x z : ℕ → Bool) :
    actAll (gates ++ gates') (ket k x) z =
      sumOver (range k) (fun y => actAll gates (ket k x) y * actAll gates' (ket k y) z) z := by
  have hreverse : ∀ gate ∈ gates'.reverse, gate.Fits k := fun gate hgate =>
    h gate (List.mem_reverse.mp hgate)
  have hdot : actAll (gates ++ gates') (ket k x) z =
      dot k (actAll gates'.reverse (ket k z)) (actAll gates (ket k x)) z := by
    rw [dot_actAll hreverse, List.reverse_reverse, dot_ket, actAll_append]
    simp
  rw [hdot, dot_comm]
  refine sumOver_congr fun y _ => ?_
  rw [actAll_reverse_ket h]

end Circuits

end ZX
