import Mathlib
import ZX.Proofs.State

/-!
# Local operators are unitary

An operator that gates on some qubits can perform is linear, loses no state and keeps the energy of
a state, which is the sum of the squares of its amplitudes over the bits of the qubits. So two
circuits that differ by a positive factor are equal.
-/
namespace ZX.State

open Finset Function

variable {qs qs' : List ℕ} {A : State → State} {k q t : ℕ} {x z β : ℕ → Bool}

theorem Local.mono (h : Local qs A) (hsub : ∀ q ∈ qs, q ∈ qs') : Local qs' A := by
  induction h with
  | id => exact .id
  | weigh hf hnorm => exact .weigh (fun z z' hz => hf z z' fun q hq => hz q (hsub q hq)) hnorm
  | toggle ht hc =>
      exact .toggle (hsub _ ht) fun z z' hz => hc z z' fun q hq hqt => hz q (hsub q hq) hqt
  | hadamard hq => exact .hadamard (hsub _ hq)
  | comp _ _ ihA ihB => exact .comp ihA ihB

theorem Local.add (h : Local qs A) (φ ψ : State) : A (φ + ψ) = A φ + A ψ := by
  induction h generalizing φ ψ with
  | id => rfl
  | weigh hf hnorm =>
      funext z
      simp only [State.weigh, Pi.add_apply]
      ring
  | toggle ht hc => rfl
  | hadamard hq =>
      funext z
      simp only [State.hadamard, Pi.add_apply]
      ring
  | comp hA hB ihA ihB => simp only [ihB, ihA]

/-- Adding the same bit twice changes nothing, since it does not depend on its target. -/
theorem toggle_toggle {c : (ℕ → Bool) → Bool} (hc : ∀ z b, c (update z t b) = c z) (z : ℕ → Bool) :
    toggle t c (toggle t c z) = z := by
  have hbit : c (toggle t c z) = c z := hc z _
  rw [toggle, hbit, toggle, update_self, update_idem, Bool.xor_assoc, Bool.xor_self, Bool.xor_false,
    update_eq_self]

/-- The bit of a local addition does not depend on its target. -/
theorem update_of_local {c : (ℕ → Bool) → Bool}
    (hc : ∀ z z' : ℕ → Bool, (∀ q ∈ qs, q ≠ t → z q = z' q) → c z = c z') (z : ℕ → Bool) (b : Bool) :
    c (update z t b) = c z :=
  hc _ _ fun _ _ hqt => update_of_ne hqt _ _

theorem Local.injective (h : Local qs A) : Injective A := by
  induction h with
  | id => exact injective_id
  | @weigh f hf hnorm =>
      intro φ ψ hφψ
      funext z
      have hz : f z * φ z = f z * ψ z := congrFun hφψ z
      have hne : f z ≠ 0 := norm_ne_zero_iff.mp (by rw [hnorm]; exact one_ne_zero)
      exact mul_left_cancel₀ hne hz
  | @toggle t c ht hc =>
      intro φ ψ hφψ
      funext z
      have hz := congrFun hφψ (State.toggle t c z)
      simp only [shift, toggle_toggle (update_of_local hc)] at hz
      exact hz
  | @hadamard q hq =>
      intro φ ψ hφψ
      rw [← hadamard_hadamard q φ, hφψ, hadamard_hadamard]
  | comp _ _ ihA ihB => exact ihA.comp ihB

/-! ## Energy -/

/-- The sum of the squares over the bits of the qubits in `S`, with the bits `β` elsewhere. -/
noncomputable def energy (S : Finset ℕ) (ψ : State) (β : ℕ → Bool) : ℂ :=
  sumOver S (fun z => ((‖ψ z‖ ^ 2 : ℝ) : ℂ)) β

variable {S : Finset ℕ} {ψ : State}

theorem energy_smul (r : ℂ) : energy S (r • ψ) β = ((‖r‖ ^ 2 : ℝ) : ℂ) * energy S ψ β := by
  rw [energy, energy, ← sumOver_mul_left]
  refine sumOver_congr fun z _ => ?_
  rw [Pi.smul_apply, norm_smul, mul_pow, Complex.ofReal_mul]

/-- The sum over a qubit of the set, taken out of the sum over the others. -/
theorem sumOver_split {f : (ℕ → Bool) → ℂ} (hq : q ∈ S) :
    sumOver S f β = sumOver (S.erase q) (fun z => f (update z q false) + f (update z q true)) β := by
  conv_lhs => rw [← insert_erase hq]
  exact sumOver_insert (notMem_erase q S)

theorem sumOver_toggle {f : (ℕ → Bool) → ℂ} {c : (ℕ → Bool) → Bool} (ht : t ∈ S)
    (hc : ∀ z b, c (update z t b) = c z) :
    sumOver S (fun z => f (toggle t c z)) β = sumOver S f β := by
  rw [sumOver_split ht, sumOver_split ht]
  refine sumOver_congr fun z _ => ?_
  have hbit : ∀ b, toggle t c (update z t b) = update z t (b ^^ c z) := by
    intro b
    rw [toggle, hc, update_self, update_idem]
  rw [hbit, hbit]
  cases c z with
  | false => rfl
  | true => exact add_comm _ _

theorem norm_sq_hadamard (u v : ℂ) :
    ‖(1 / (√2 : ℝ) : ℂ) * u + 1 / (√2 : ℝ) * v‖ ^ 2 +
      ‖(1 / (√2 : ℝ) : ℂ) * u + -1 / (√2 : ℝ) * v‖ ^ 2 = ‖u‖ ^ 2 + ‖v‖ ^ 2 := by
  have hsqrt : ‖((√2 : ℝ) : ℂ)‖ ^ 2 = 2 := by
    rw [Complex.norm_real, Real.norm_of_nonneg (Real.sqrt_nonneg 2), Real.sq_sqrt (by norm_num)]
  have hplus : (1 / (√2 : ℝ) : ℂ) * u + 1 / (√2 : ℝ) * v = (u + v) / (√2 : ℝ) := by ring
  have hminus : (1 / (√2 : ℝ) : ℂ) * u + -1 / (√2 : ℝ) * v = (u - v) / (√2 : ℝ) := by ring
  have hlaw := parallelogram_law_with_norm ℝ u v
  rw [hplus, hminus, norm_div, norm_div, div_pow, div_pow, hsqrt]
  linarith

theorem Local.energy_eq (h : Local qs A) (hqs : ∀ q ∈ qs, q ∈ S) (ψ : State) :
    energy S (A ψ) β = energy S ψ β := by
  induction h generalizing ψ with
  | id => rfl
  | weigh hf hnorm =>
      refine sumOver_congr fun z _ => ?_
      rw [State.weigh, norm_mul, hnorm, one_mul]
  | @toggle t c ht hc =>
      exact sumOver_toggle (f := fun z => ((‖ψ z‖ ^ 2 : ℝ) : ℂ)) (hqs t ht) (update_of_local hc)
  | @hadamard q hq =>
      rw [energy, energy, sumOver_split (hqs q hq), sumOver_split (hqs q hq)]
      refine sumOver_congr fun z _ => ?_
      simp only [State.hadamard, update_self, update_idem, EdgeKind.factor]
      rw [← Complex.ofReal_add, ← Complex.ofReal_add]
      exact congrArg _ (norm_sq_hadamard _ _)
  | comp _ _ ihA ihB => rw [ihA, ihB]

/-! ## Basis states -/

theorem ket_self (k : ℕ) (x : ℕ → Bool) : ket k x x = 1 := if_pos fun _ _ => rfl

/-- The last bit of a ket is tested first. -/
theorem ket_succ_update (k : ℕ) (x z : ℕ → Bool) (b : Bool) :
    ket (k + 1) x (update z k b) = if b = x k then ket k x z else 0 := by
  have hlow : (∀ q < k, update z k b q = x q) ↔ ∀ q < k, z q = x q :=
    forall₂_congr fun q hq => by rw [update_of_ne hq.ne]
  simp only [ket, Nat.forall_lt_succ_right, hlow, update_self]
  by_cases hb : b = x k <;> simp [hb]

theorem energy_ket (k : ℕ) (x β : ℕ → Bool) : energy (range k) (ket k x) β = 1 := by
  induction k with
  | zero => simp [energy, ket]
  | succ k ih =>
      rw [energy, range_add_one, sumOver_insert notMem_range_self, ← ih]
      refine sumOver_congr fun z _ => ?_
      rw [ket_succ_update, ket_succ_update]
      cases x k <;> simp

theorem rotate_ket {ω : ℂ} (hq : q < k) (x : ℕ → Bool) :
    rotate ω q (ket k x) = spin ω (x q) • ket k x := by
  funext z
  rw [rotate, weigh, Pi.smul_apply, smul_eq_mul, ket]
  split
  case isTrue hz => rw [hz q hq]
  case isFalse => rw [mul_zero, mul_zero]

/-- Bits of a ket may be exchanged for a bit of the state. -/
theorem hadamard_ket (hq : q < k) (x : ℕ → Bool) :
    hadamard q (ket k x) =
      EdgeKind.hadamard.factor (x q) false • ket k (update x q false) +
        EdgeKind.hadamard.factor (x q) true • ket k (update x q true) := by
  funext z
  have hket : ∀ b, ket k x (update z q b) = if b = x q then ket k (update x q (z q)) z else 0 := by
    intro b
    have hagree : (∀ p < k, update z q b p = x p) ↔
        b = x q ∧ ∀ p < k, z p = update x q (z q) p := by
      constructor
      · intro h
        have hbq := h q hq
        rw [update_self] at hbq
        refine ⟨hbq, fun p hp => ?_⟩
        by_cases hpq : p = q
        · rw [hpq, update_self]
        · rw [update_of_ne hpq, ← h p hp, update_of_ne hpq]
      · rintro ⟨hbq, h⟩ p hp
        by_cases hpq : p = q
        · rw [hpq, update_self, hbq]
        · rw [update_of_ne hpq, h p hp, update_of_ne hpq]
    simp only [ket, hagree]
    by_cases hb : b = x q <;> simp [hb]
  have hone : ∀ b, b ≠ z q → ket k (update x q b) z = 0 := by
    intro b hb
    refine if_neg fun h => hb ?_
    have hzq := h q hq
    rw [update_self] at hzq
    exact hzq.symm
  simp only [hadamard, hket, Pi.add_apply, Pi.smul_apply, smul_eq_mul]
  cases hx : x q <;> cases hz : z q
  all_goals
    have hnot := hone (!z q) (by simp)
    simp only [hz, Bool.not_true, Bool.not_false] at hnot
    simp [hnot, EdgeKind.factor]

end ZX.State
