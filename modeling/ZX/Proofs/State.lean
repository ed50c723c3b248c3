import Mathlib
import ZX.Circuit.Basic
import ZX.Proofs.Meaning

/-!
# The linear map of a circuit

A state gives an amplitude to every valuation of the qubits. A gate acts on states by its matrix: it
multiplies by a number, exchanges valuations, or mixes the two values of one qubit. A circuit lets
its gates act one after the other and multiplies by its global phase.
-/
namespace ZX

open Function

abbrev State := (ℕ → Bool) → ℂ

namespace State

/-- A diagonal matrix. -/
def weigh (f : (ℕ → Bool) → ℂ) (ψ : State) : State := fun z => f z * ψ z

/-- A permutation matrix, given by its inverse. -/
def shift (π : (ℕ → Bool) → ℕ → Bool) (ψ : State) : State := fun z => ψ (π z)

noncomputable def hadamard (q : ℕ) (ψ : State) : State := fun z =>
  EdgeKind.hadamard.factor (z q) false * ψ (update z q false) +
    EdgeKind.hadamard.factor (z q) true * ψ (update z q true)

/-- A phase `ω` on the value 1 of a qubit. -/
def rotate (ω : ℂ) (q : ℕ) : State → State := weigh fun z => spin ω (z q)

/-- Adds a bit to a qubit. -/
def toggle (t : ℕ) (c : (ℕ → Bool) → Bool) (z : ℕ → Bool) : ℕ → Bool := update z t (z t ^^ c z)

def exchange (p q : ℕ) (z : ℕ → Bool) : ℕ → Bool := update (update z p (z q)) q (z p)

/-- The basis state of the first `k` bits of a valuation. -/
def ket (k : ℕ) (x : ℕ → Bool) : State := fun z => if ∀ q < k, z q = x q then 1 else 0

end State

open State in
/-- The action of a gate. An unknown gate, or one with a wrong number of qubits, does nothing. -/
noncomputable def Gate.act (g : Gate) : State → State :=
  match g.kind, g.qubits with
  | .zPhase, [q] => rotate g.phase.unit q
  | .z, [q] => rotate (-1) q
  | .s, [q] => rotate Complex.I q
  | .sdg, [q] => rotate (-Complex.I) q
  | .t, [q] => rotate Phase.eighth.unit q
  | .tdg, [q] => rotate Phase.negEighth.unit q
  | .xPhase, [q] => fun ψ => hadamard q (rotate g.phase.unit q (hadamard q ψ))
  | .not, [q] => shift (toggle q fun _ => true)
  | .had, [q] => hadamard q
  | .cnot, [c, t] => shift (toggle t (· c))
  | .cz, [a, b] => weigh fun z => if z a && z b then -1 else 1
  | .swap, [a, b] => shift (exchange a b)
  | .toffoli, [a, b, t] => shift (toggle t fun z => z a && z b)
  | .ccz, [a, b, c] => weigh fun z => if z a && z b && z c then -1 else 1
  | _, _ => id

/-- Gates in execution order. -/
noncomputable def actAll (gates : List Gate) (ψ : State) : State :=
  gates.foldl (fun ψ g => g.act ψ) ψ

noncomputable def Circuit.act (c : Circuit) (ψ : State) : State :=
  c.globalPhase.unit • actAll c.gates ψ

/-- The entry of the matrix of a circuit on `k` qubits from the bits `x` to the bits `y`. -/
noncomputable def Circuit.amplitude (k : ℕ) (c : Circuit) (x y : ℕ → Bool) : ℂ :=
  c.act (State.ket k x) y

@[simp] theorem actAll_nil (ψ : State) : actAll [] ψ = ψ := rfl

@[simp] theorem actAll_cons (g : Gate) (gates : List Gate) (ψ : State) :
    actAll (g :: gates) ψ = actAll gates (g.act ψ) := rfl

theorem actAll_append (gates gates' : List Gate) (ψ : State) :
    actAll (gates ++ gates') ψ = actAll gates' (actAll gates ψ) := List.foldl_append

/-! ## Local operators -/

namespace State

/-- Operators that a gate on the listed qubits can perform: phases and permutations that look at
these qubits only, Hadamards on them, and composites. -/
inductive Local (qs : List ℕ) : (State → State) → Prop
  | id : Local qs id
  | weigh {f : (ℕ → Bool) → ℂ} (hf : ∀ z z' : ℕ → Bool, (∀ q ∈ qs, z q = z' q) → f z = f z')
      (hnorm : ∀ z, ‖f z‖ = 1) : Local qs (weigh f)
  | toggle {t : ℕ} {c : (ℕ → Bool) → Bool} (ht : t ∈ qs)
      (hc : ∀ z z' : ℕ → Bool, (∀ q ∈ qs, q ≠ t → z q = z' q) → c z = c z') :
      Local qs (shift (toggle t c))
  | hadamard {q : ℕ} (hq : q ∈ qs) : Local qs (hadamard q)
  | comp {A B : State → State} (hA : Local qs A) (hB : Local qs B) : Local qs fun ψ => A (B ψ)

variable {qs : List ℕ} {A : State → State}

theorem Local.smul (h : Local qs A) (r : ℂ) (ψ : State) : A (r • ψ) = r • A ψ := by
  induction h generalizing ψ with
  | id => rfl
  | weigh hf hnorm =>
      funext z
      simp only [State.weigh, Pi.smul_apply, smul_eq_mul]
      ring
  | toggle ht hc => rfl
  | hadamard hq =>
      funext z
      simp only [State.hadamard, Pi.smul_apply, smul_eq_mul]
      ring
  | comp hA hB ihA ihB => simp only [ihB, ihA]

/-- An operator commutes with a Hadamard on a qubit that it does not look at. -/
theorem Local.hadamard_comm (h : Local qs A) {q : ℕ} (hq : q ∉ qs) (ψ : State) :
    A (State.hadamard q ψ) = State.hadamard q (A ψ) := by
  induction h generalizing ψ with
  | id => rfl
  | @weigh f hf hnorm =>
      funext z
      have hignore : ∀ b, f (update z q b) = f z := fun b =>
        hf _ _ fun p hp => update_of_ne (ne_of_mem_of_not_mem hp hq) _ _
      simp only [State.weigh, State.hadamard, hignore]
      ring
  | @toggle t c ht hc =>
      funext z
      have htq : t ≠ q := ne_of_mem_of_not_mem ht hq
      have hignore : ∀ b, c (update z q b) = c z := fun b =>
        hc _ _ fun p hp _ => update_of_ne (ne_of_mem_of_not_mem hp hq) _ _
      have hcomm : ∀ b, State.toggle t c (update z q b) = update (State.toggle t c z) q b := by
        intro b
        rw [State.toggle, State.toggle, hignore, update_of_ne htq, update_comm htq.symm]
      have hbit : State.toggle t c z q = z q := update_of_ne htq.symm _ _
      simp only [State.shift, State.hadamard, hcomm, hbit]
  | @hadamard p hp =>
      funext z
      have hpq : p ≠ q := ne_of_mem_of_not_mem hp hq
      simp only [State.hadamard, update_of_ne hpq, update_of_ne hpq.symm,
        update_comm hpq]
      ring
  | comp hA hB ihA ihB => simp only [ihB, ihA]

theorem hadamard_hadamard (q : ℕ) (ψ : State) : hadamard q (hadamard q ψ) = ψ := by
  funext z
  simp only [hadamard, update_self, update_idem]
  have hz : update z q (z q) = z := update_eq_self q z
  cases hb : z q with
  | false =>
      rw [hb] at hz
      simp only [EdgeKind.factor, Bool.and_false, Bool.and_true, if_false, Bool.false_eq_true, hz,
        if_true, div_eq_mul_inv]
      linear_combination (2 * ψ z) * Scalar.sqrt2_inv_mul_inv
  | true =>
      rw [hb] at hz
      simp only [EdgeKind.factor, Bool.and_false, Bool.and_true, if_false, Bool.false_eq_true, hz,
        if_true, div_eq_mul_inv]
      linear_combination (2 * ψ z) * Scalar.sqrt2_inv_mul_inv

theorem local_rotate {ω : ℂ} (hω : ‖ω‖ = 1) {q : ℕ} (hq : q ∈ qs) : Local qs (rotate ω q) := by
  refine .weigh (fun z z' h => by rw [h q hq]) fun z => ?_
  cases z q with
  | false => exact norm_one
  | true => exact hω

theorem exchange_apply (a b : ℕ) (z : ℕ → Bool) (i : ℕ) :
    exchange a b z i = z (Equiv.swap a b i) := by
  rw [exchange, Equiv.swap_apply_def]
  by_cases hib : i = b
  · by_cases hia : i = a
    · simp [← hib, ← hia]
    · simp [hib, hib ▸ hia]
  · by_cases hia : i = a
    · simp [hia, hia ▸ hib]
    · simp [hib, hia]

/-- A swap is three additions. -/
theorem shift_exchange {p q : ℕ} (hpq : p ≠ q) (ψ : State) :
    shift (exchange p q) ψ =
      shift (toggle q (· p)) (shift (toggle p (· q)) (shift (toggle q (· p)) ψ)) := by
  funext z
  refine congrArg ψ (funext fun r => ?_)
  by_cases hrq : r = q
  · subst hrq
    simp [exchange, toggle, hpq, hpq.symm]
  · by_cases hrp : r = p
    · subst hrp
      simp only [exchange, toggle, ne_eq, hrq, not_false_eq_true, update_of_ne, update_self, hpq.symm]
      cases z r <;> cases z q <;> rfl
    · simp [exchange, toggle, hrq, hrp]

end State

open State in
theorem Gate.act_local (g : Gate) (hnodup : g.qubits.Nodup) : Local g.qubits g.act := by
  have hI : ‖Complex.I‖ = 1 := Complex.norm_I
  have hsign : ∀ b : Bool, ‖(if b then (-1 : ℂ) else 1)‖ = 1 := by
    intro b
    cases b <;> simp
  unfold Gate.act
  split
  case h_1 q _ hqs => exact local_rotate (Phase.norm_unit _) (by simp [hqs])
  case h_2 q _ hqs => exact local_rotate (by simp) (by simp [hqs])
  case h_3 q _ hqs => exact local_rotate hI (by simp [hqs])
  case h_4 q _ hqs => exact local_rotate (by rw [norm_neg, hI]) (by simp [hqs])
  case h_5 q _ hqs => exact local_rotate (Phase.norm_unit _) (by simp [hqs])
  case h_6 q _ hqs => exact local_rotate (Phase.norm_unit _) (by simp [hqs])
  case h_7 q _ hqs =>
    have hhad : Local g.qubits (hadamard q) := .hadamard (by simp [hqs])
    exact hhad.comp ((local_rotate (Phase.norm_unit _) (by simp [hqs])).comp hhad)
  case h_8 q _ hqs => exact .toggle (by simp [hqs]) fun _ _ _ => rfl
  case h_9 q _ hqs => exact .hadamard (by simp [hqs])
  case h_10 c t _ hqs =>
    have hct : c ≠ t := by simpa [hqs] using hnodup
    exact .toggle (by simp [hqs]) fun z z' h => h c (by simp [hqs]) hct
  case h_11 a b _ hqs =>
    refine .weigh (fun z z' h => ?_) fun z => hsign _
    rw [h a (by simp [hqs]), h b (by simp [hqs])]
  case h_12 a b _ hqs =>
    have hab : a ≠ b := by simpa [hqs] using hnodup
    have hfirst : Local g.qubits (shift (toggle b (· a))) :=
      .toggle (by simp [hqs]) fun z z' h => h a (by simp [hqs]) hab
    have hsecond : Local g.qubits (shift (toggle a (· b))) :=
      .toggle (by simp [hqs]) fun z z' h => h b (by simp [hqs]) hab.symm
    rw [funext (shift_exchange hab)]
    exact hfirst.comp (hsecond.comp hfirst)
  case h_13 a b t _ hqs =>
    have hne : a ≠ t ∧ b ≠ t := by
      rw [hqs] at hnodup
      simp at hnodup
      tauto
    refine .toggle (by simp [hqs]) fun z z' h => ?_
    rw [h a (by simp [hqs]) hne.1, h b (by simp [hqs]) hne.2]
  case h_14 a b c _ hqs =>
    refine .weigh (fun z z' h => ?_) fun z => hsign _
    rw [h a (by simp [hqs]), h b (by simp [hqs]), h c (by simp [hqs])]
  case h_15 => exact .id

theorem actAll_smul {gates : List Gate} (h : ∀ g ∈ gates, g.qubits.Nodup) (r : ℂ) (ψ : State) :
    actAll gates (r • ψ) = r • actAll gates ψ := by
  induction gates generalizing ψ with
  | nil => rfl
  | cons g gates ih =>
      rw [actAll_cons, actAll_cons, (g.act_local (h g List.mem_cons_self)).smul]
      exact ih (fun g' hg' => h g' (List.mem_cons_of_mem g hg')) _

end ZX
