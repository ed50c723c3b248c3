import Mathlib
import ZX.Kind

/-!
# Sums over assignments and products over pairs

A diagram is evaluated by a sum over the bits of its spiders, the bits of its ends being fixed, of
a product over its spiders and over its pairs of vertices. Both are stated here over sets of
numbers, with the lemmas that take a single number out of such a set.
-/
namespace ZX

open Finset Function

/-- The factor of a spider with weight `ω`. -/
def spin (ω : ℂ) (b : Bool) : ℂ := if b then ω else 1

@[simp] theorem spin_false (ω : ℂ) : spin ω false = 1 := rfl

@[simp] theorem spin_true (ω : ℂ) : spin ω true = ω := rfl

@[simp] theorem spin_one (b : Bool) : spin 1 b = 1 := by cases b <;> rfl

theorem spin_mul (ω ω' : ℂ) (b : Bool) : spin (ω * ω') b = spin ω b * spin ω' b := by
  cases b <;> simp

/-! ## Sums over the bits of a set -/

/-- The valuation that gives 1 to the members of `A` and 0 to the other members of `S`. -/
def assign (S A : Finset ℕ) (β : ℕ → Bool) : ℕ → Bool :=
  fun v => if v ∈ S then decide (v ∈ A) else β v

/-- The sum over all bits of the members of `S`; elsewhere the valuation is `β`. -/
def sumOver (S : Finset ℕ) (f : (ℕ → Bool) → ℂ) (β : ℕ → Bool) : ℂ :=
  ∑ A ∈ S.powerset, f (assign S A β)

variable {S T : Finset ℕ} {f f' : (ℕ → Bool) → ℂ} {β β' : ℕ → Bool} {v : ℕ}

@[simp] theorem assign_of_notMem (h : v ∉ S) (A : Finset ℕ) : assign S A β v = β v := if_neg h

@[simp] theorem sumOver_empty : sumOver ∅ f β = f β := by
  have h : assign ∅ ∅ β = β := funext fun v => assign_of_notMem (notMem_empty v) ∅
  simp [sumOver, h]

theorem sumOver_congr (h : ∀ a, (∀ v, v ∉ S → a v = β v) → f a = f' a) :
    sumOver S f β = sumOver S f' β :=
  sum_congr rfl fun A _ => h _ fun _ hv => assign_of_notMem hv A

theorem sumOver_mul_left (c : ℂ) : sumOver S (fun a => c * f a) β = c * sumOver S f β := by
  simp only [sumOver, mul_sum]

theorem sumOver_add : sumOver S (fun a => f a + f' a) β = sumOver S f β + sumOver S f' β :=
  sum_add_distrib

/-- Only the values outside the set matter. -/
theorem sumOver_val_congr (h : ∀ v, v ∉ S → β v = β' v) : sumOver S f β = sumOver S f β' := by
  refine sum_congr rfl fun A _ => congrArg f (funext fun v => ?_)
  by_cases hv : v ∈ S
  · simp [assign, hv]
  · rw [assign_of_notMem hv, assign_of_notMem hv, h v hv]

theorem assign_insert_false {A : Finset ℕ} (hv : v ∉ S) (hA : A ⊆ S) :
    assign (insert v S) A β = update (assign S A β) v false := by
  funext u
  by_cases hu : u = v
  · subst hu
    have huA : u ∉ A := fun h => hv (hA h)
    simp [assign, huA]
  · simp [assign, hu]

theorem assign_insert_true {A : Finset ℕ} (hv : v ∉ S) :
    assign (insert v S) (insert v A) β = update (assign S A β) v true := by
  funext u
  by_cases hu : u = v
  · subst hu
    simp [assign]
  · simp [assign, hu]

theorem sumOver_insert (hv : v ∉ S) :
    sumOver (insert v S) f β =
      sumOver S (fun a => f (update a v false) + f (update a v true)) β := by
  rw [sumOver, sum_powerset_insert hv, sumOver_add]
  congr 1
  · refine sum_congr rfl fun A hA => ?_
    rw [assign_insert_false hv (mem_powerset.mp hA)]
  · refine sum_congr rfl fun A _ => ?_
    rw [assign_insert_true hv]

theorem update_assign (hv : v ∉ S) (A : Finset ℕ) (b : Bool) :
    update (assign S A β) v b = assign S A (update β v b) := by
  funext u
  by_cases hu : u = v
  · subst hu
    simp [hv]
  · by_cases hS : u ∈ S <;> simp [assign, hu, hS]

/-- A valuation may be changed inside the summand or outside the sum. -/
theorem sumOver_update (hv : v ∉ S) (b : Bool) :
    sumOver S (fun a => f (update a v b)) β = sumOver S f (update β v b) := by
  refine sum_congr rfl fun A _ => ?_
  exact congrArg f (update_assign hv A b)

/-! ## Products over pairs -/

/-- The product over all pairs `s < t` of members of `V`. -/
def pairs (V : Finset ℕ) (φ : ℕ → ℕ → ℂ) : ℂ := ∏ s ∈ V, ∏ t ∈ V with s < t, φ s t

variable {V : Finset ℕ} {φ ψ : ℕ → ℕ → ℂ}

theorem pairs_congr (h : ∀ s ∈ V, ∀ t ∈ V, s ≠ t → φ s t = ψ s t) : pairs V φ = pairs V ψ := by
  refine prod_congr rfl fun s hs => prod_congr rfl fun t ht => ?_
  rw [mem_filter] at ht
  exact h s hs t ht.1 (Nat.ne_of_lt ht.2)

theorem pairs_insert (hφ : ∀ s t, φ s t = φ t s) (hv : v ∉ V) :
    pairs (insert v V) φ = (∏ u ∈ V, φ v u) * pairs V φ := by
  have hbelow : ∀ s ∈ V, ∏ t ∈ insert v V with s < t, φ s t =
      (if s < v then φ v s else 1) * ∏ t ∈ V with s < t, φ s t := by
    intro s _
    rw [filter_insert]
    split
    · rw [prod_insert (by simp [hv]), hφ s v]
    · rw [one_mul]
  have habove : (insert v V).filter (v < ·) = V.filter (v < ·) := by
    rw [filter_insert, if_neg (lt_irrefl v)]
  have hsplit : ∏ u ∈ V, φ v u =
      (∏ t ∈ V with v < t, φ v t) * ∏ s ∈ V, if s < v then φ v s else 1 := by
    rw [prod_filter, ← prod_mul_distrib]
    refine prod_congr rfl fun u hu => ?_
    rcases lt_trichotomy v u with h | h | h
    · rw [if_pos h, if_neg (Nat.lt_asymm h), mul_one]
    · exact absurd (h ▸ hu) hv
    · rw [if_neg (Nat.lt_asymm h), if_pos h, one_mul]
  rw [pairs, prod_insert hv, prod_congr rfl hbelow, prod_mul_distrib, habove, hsplit, pairs]
  ring

/-- The factors between two disjoint sets can be taken out, and what remains does not depend on
them. The members of the first set leave one after the other. -/
theorem exists_pairs_eq {R C : Finset ℕ} (φ : ℕ → ℕ → ℂ) (hR : R ⊆ V) (hC : C ⊆ V)
    (hRC : Disjoint R C) :
    ∃ X, ∀ ψ : ℕ → ℕ → ℂ, (∀ s t, ψ s t = ψ t s) →
      (∀ s ∈ V, ∀ t ∈ V, ¬(s ∈ R ∧ t ∈ C) → ¬(s ∈ C ∧ t ∈ R) → ψ s t = φ s t) →
      pairs V ψ = X * ∏ r ∈ R, ∏ c ∈ C, ψ r c := by
  induction R using Finset.induction generalizing V with
  | empty =>
      refine ⟨pairs V φ, fun ψ _ h => ?_⟩
      rw [prod_empty, mul_one]
      exact pairs_congr fun s hs t ht _ => h s hs t ht (by simp) (by simp)
  | insert r R hr ih =>
      obtain ⟨W, hW, rfl⟩ : ∃ W, r ∉ W ∧ V = insert r W :=
        ⟨V.erase r, by simp, by simp [hR (mem_insert_self r R)]⟩
      have hrC : r ∉ C := disjoint_left.mp hRC (mem_insert_self r R)
      have hCW : C ⊆ W := fun c hc =>
        (mem_insert.mp (hC hc)).resolve_left (ne_of_mem_of_not_mem hc hrC)
      have hRW : R ⊆ W := fun s hs =>
        (mem_insert.mp (hR (mem_insert_of_mem hs))).resolve_left (ne_of_mem_of_not_mem hs hr)
      obtain ⟨X, hX⟩ := ih hRW hCW (hRC.mono_left (subset_insert r R))
      refine ⟨(∏ u ∈ W \ C, φ r u) * X, fun ψ hψ h => ?_⟩
      have hrest : ∏ u ∈ W \ C, ψ r u = ∏ u ∈ W \ C, φ r u := by
        refine prod_congr rfl fun u hu => ?_
        obtain ⟨huW, huC⟩ := mem_sdiff.mp hu
        exact h r (mem_insert_self r W) u (mem_insert_of_mem huW) (fun hc => huC hc.2)
          fun hc => hrC hc.1
      have hinner := hX ψ hψ fun s hs t ht h1 h2 => by
        refine h s (mem_insert_of_mem hs) t (mem_insert_of_mem ht) (fun hc => h1 ⟨?_, hc.2⟩)
          fun hc => h2 ⟨hc.1, ?_⟩
        · exact (mem_insert.mp hc.1).resolve_left (ne_of_mem_of_not_mem hs hW)
        · exact (mem_insert.mp hc.2).resolve_left (ne_of_mem_of_not_mem ht hW)
      rw [pairs_insert hψ hW, ← prod_sdiff hCW, hrest, hinner, prod_insert hr]
      ring

end ZX
