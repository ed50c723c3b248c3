import Mathlib
import ZX.Proofs.State

/-!
# Compound gates

A controlled phase between Hadamards on its target is a controlled negation of the target. The
network of a doubly controlled phase computes all parities of its three qubits, turns each by an
eighth, and undoes the parities.
-/
namespace ZX

open Function

namespace Phase

open Complex in
theorem unit_eighth_pow : eighth.unit ^ 4 = -1 := by
  have h : ((4 : ℕ) : ℂ) * ((Real.pi : ℂ) * ((mkRat 1 4 : ℚ) : ℂ) * I) = Real.pi * I := by
    have : (mkRat 1 4 : ℚ) = 1 / 4 := by norm_num [Rat.mkRat_eq_div]
    rw [this]
    push_cast
    ring
  rw [unit, eighth, ← exp_nat_mul, h, exp_pi_mul_I]

open Complex in
theorem unit_negEighth : negEighth.unit = eighth.unit⁻¹ := by
  have h : (mkRat (-1) 4 : ℚ) = -(mkRat 1 4 : ℚ) := by norm_num [Rat.mkRat_eq_div]
  have hneg : (Real.pi : ℂ) * ((mkRat (-1) 4 : ℚ) : ℂ) * I =
      -(Real.pi * ((mkRat 1 4 : ℚ) : ℂ) * I) := by
    rw [h]
    push_cast
    ring
  rw [unit, unit, negEighth, eighth, ← exp_neg, ← hneg]

end Phase

namespace State

variable {a b c q t : ℕ} {ψ : State}

/-- The sign of a conjunction. -/
def sign (x : Bool) : ℂ := if x then -1 else 1

theorem norm_sign (x : Bool) : ‖sign x‖ = 1 := by cases x <;> simp [sign]

theorem sqrt2_mul_factor (x y : Bool) :
    ((√2 : ℝ) : ℂ) * EdgeKind.hadamard.factor x y = sign (x && y) := by
  have h2 := Scalar.sqrt2_ne_zero
  rw [EdgeKind.factor, sign, mul_div_cancel₀ _ h2]

theorem spin_neg_one (x : Bool) : spin (-1) x = sign x := by cases x <;> rfl

/-- A phase under a condition, behind a Hadamard, is a negation under the condition in front. -/
theorem weigh_hadamard {s : (ℕ → Bool) → Bool} (hs : ∀ z b, s (update z t b) = s z) (ψ : State) :
    weigh (fun z => sign (s z && z t)) (hadamard t ψ) = hadamard t (shift (toggle t s) ψ) := by
  funext z
  simp only [weigh, hadamard, shift, toggle, hs, update_self, update_idem]
  cases s z with
  | false => simp [sign]
  | true =>
      cases z t <;> simp [sign, EdgeKind.factor] <;> ring

theorem hadamard_flip {s : (ℕ → Bool) → Bool} (hs : ∀ z b, s (update z t b) = s z) (ψ : State) :
    hadamard t (weigh (fun z => sign (s z && z t)) (hadamard t ψ)) = shift (toggle t s) ψ := by
  rw [weigh_hadamard hs, hadamard_hadamard]

/-- The eight phases of the network. -/
theorem prod_eighths (x y w : Bool) :
    spin Phase.negEighth.unit (w ^^ y) * spin Phase.eighth.unit (w ^^ y ^^ x) *
      spin Phase.negEighth.unit (w ^^ x) * spin Phase.eighth.unit y * spin Phase.eighth.unit w *
      spin Phase.eighth.unit x * spin Phase.negEighth.unit (y ^^ x) = sign (x && y && w) := by
  have hpow := Phase.unit_eighth_pow
  have hne := Phase.eighth.unit_ne_zero
  rw [Phase.unit_negEighth]
  cases x <;> cases y <;> cases w <;> simp [sign, hne]
  linear_combination hpow

theorem actAll_cczNetwork (hab : a ≠ b) (hac : a ≠ c) (hbc : b ≠ c) (ψ : State) :
    actAll (Gate.cczNetwork a b c) ψ = weigh (fun z => sign (z a && z b && z c)) ψ := by
  have htoggle : ∀ {s t : ℕ}, t ≠ s → ∀ z, toggle t (· s) (toggle t (· s) z) = z := by
    intro s t hts z
    rw [toggle, toggle, update_self, update_of_ne hts.symm, update_idem, Bool.xor_assoc,
      Bool.xor_self, Bool.xor_false, update_eq_self]
  have hcomm : ∀ z, toggle c (· b) (toggle c (· a) z) = toggle c (· a) (toggle c (· b) z) := by
    intro z
    simp only [toggle, update_self, update_of_ne hac, update_of_ne hbc, update_idem,
      Bool.xor_right_comm]
  funext z
  simp only [Gate.cczNetwork, Gate.plain, actAll_cons, actAll_nil, Gate.act, shift, rotate, weigh]
  rw [hcomm, htoggle hac.symm, htoggle hbc.symm, htoggle hab.symm]
  simp only [← mul_assoc]
  rw [← prod_eighths]
  congr 1
  simp only [toggle, update_self, update_of_ne hab, update_of_ne hac]
  ring

end State

open State

/-- A gate of a known kind has as many qubits as its kind asks for, which are distinct and below
`k`. An unknown gate may be anything. -/
def Gate.Fits (k : ℕ) (g : Gate) : Prop :=
  ∀ n, g.kind.arity = some n → g.qubits.length = n ∧ g.qubits.Nodup ∧ ∀ q ∈ g.qubits, q < k

instance (k : ℕ) (g : Gate) : Decidable (g.Fits k) :=
  match h : g.kind.arity with
  | none => .isTrue fun n hn => by simp [h] at hn
  | some n => decidable_of_iff (g.qubits.length = n ∧ g.qubits.Nodup ∧ ∀ q ∈ g.qubits, q < k)
      ⟨fun hg m hm => Option.some.inj (h.symm.trans hm) ▸ hg, fun hg => hg n h⟩

/-- A gate that a diagram has spiders for. -/
def Gate.IsBasic (g : Gate) : Prop := g.kind ≠ .ccz ∧ g.kind ≠ .toffoli

theorem Gate.basicGates_of_isBasic {g : Gate} (h : g.IsBasic) : g.basicGates = .ok [g] := by
  obtain ⟨hccz, htoffoli⟩ := h
  unfold basicGates
  split <;> first | rfl | (rename_i hk; simp_all)

theorem cczNetwork_fits {a b c k : ℕ} (hab : a ≠ b) (hac : a ≠ c) (hbc : b ≠ c) (ha : a < k)
    (hb : b < k) (hc : c < k) : ∀ p ∈ Gate.cczNetwork a b c, p.Fits k ∧ p.IsBasic := by
  intro p hp
  simp only [Gate.cczNetwork, Gate.plain, List.mem_cons, List.not_mem_nil, or_false] at hp
  rcases hp with rfl | rfl | rfl | rfl | rfl | rfl | rfl | rfl | rfl | rfl | rfl | rfl | rfl <;>
    simp [Gate.Fits, Gate.IsBasic, GateKind.arity, hab, hac, hbc, ha, hb, hc]

theorem Gate.exists_basicGates {g : Gate} {k : ℕ} (h : g.Fits k) :
    ∃ pieces, g.basicGates = .ok pieces ∧ (∀ p ∈ pieces, p.Fits k ∧ p.IsBasic) ∧
      ∀ ψ, actAll pieces ψ = g.act ψ := by
  by_cases hbasic : g.IsBasic
  · refine ⟨[g], basicGates_of_isBasic hbasic, ?_, fun _ => rfl⟩
    simp [h, hbasic]
  · have hkind : g.kind = .ccz ∨ g.kind = .toffoli := by
      unfold IsBasic at hbasic
      tauto
    obtain ⟨hlength, hnodup, hlt⟩ := h 3 (by rcases hkind with hk | hk <;> rw [hk] <;> rfl)
    obtain ⟨a, b, c, hqs⟩ := List.length_eq_three.mp hlength
    obtain ⟨kind, qubits, phase⟩ := g
    simp only at hqs hkind
    subst hqs
    simp only [List.nodup_cons, List.mem_cons, not_or, List.not_mem_nil, or_false,
      List.nodup_nil, not_false_eq_true, and_true, forall_eq_or_imp, forall_eq] at hnodup hlt
    obtain ⟨⟨hab, hac⟩, hbc⟩ := hnodup
    obtain ⟨ha, hb, hc⟩ := hlt
    have hfits := cczNetwork_fits hab hac hbc ha hb hc
    rcases hkind with rfl | rfl
    · refine ⟨cczNetwork a b c, rfl, hfits, fun ψ => ?_⟩
      rw [actAll_cczNetwork hab hac hbc]
      rfl
    · refine ⟨plain .had [c] :: cczNetwork a b c ++ [plain .had [c]], rfl, ?_, fun ψ => ?_⟩
      · intro p hp
        simp only [List.cons_append, List.mem_cons, List.mem_append, List.not_mem_nil,
          or_false] at hp
        rcases hp with rfl | hp | rfl
        · simp [Fits, IsBasic, plain, GateKind.arity, hc]
        · exact hfits p hp
        · simp [Fits, IsBasic, plain, GateKind.arity, hc]
      · rw [List.cons_append, actAll_cons, actAll_append, actAll_cczNetwork hab hac hbc]
        exact hadamard_flip (s := fun z => z a && z b)
          (fun z d => by rw [update_of_ne hac, update_of_ne hbc]) ψ

end ZX
