import Mathlib
import ZX.Proofs.Matrix.Elimination

/-!
# The row space

The rows of a matrix over two elements span a space that row steps do not change. A unit vector in
the row space of a matrix whose rows own columns is one of its rows, so elimination shows every unit
vector of the row space.
-/
namespace ZX.ByteMatrix

open RowStep

variable {n i j : ℕ}

/-- A row as a vector. -/
def vector (x : ℕ → Bool) : ℕ → ZMod 2 := fun j => if x j then 1 else 0

theorem vector_xor (x y : ℕ → Bool) : vector (fun j => x j ^^ y j) = vector x + vector y := by
  funext j
  have htwo : (1 : ZMod 2) + 1 = 0 := by decide
  by_cases hx : x j = true <;> by_cases hy : y j = true <;> simp [vector, hx, hy, htwo]

theorem vector_injective : Function.Injective vector := by
  intro x y h
  funext j
  have hj := congrFun h j
  simp only [vector] at hj
  cases hx : x j <;> cases hy : y j <;> simp_all

/-- The span of the first `n` rows. -/
def rowSpace (n : ℕ) (M : BitMatrix) : Submodule (ZMod 2) (ℕ → ZMod 2) :=
  Submodule.span (ZMod 2) (Set.range fun i : Fin n => vector (M i))

theorem vector_mem_rowSpace {M : BitMatrix} (hi : i < n) : vector (M i) ∈ rowSpace n M :=
  Submodule.subset_span ⟨⟨i, hi⟩, rfl⟩

theorem rowSpace_le {M : BitMatrix} {S : Submodule (ZMod 2) (ℕ → ZMod 2)}
    (h : ∀ i < n, vector (M i) ∈ S) : rowSpace n M ≤ S := by
  apply Submodule.span_le.mpr
  intro x hx
  obtain ⟨i, rfl⟩ := hx
  exact h i i.isLt

theorem rowSpace_onBits_le {M : BitMatrix} {s : RowStep} (hs : s.Within n) :
    rowSpace n (s.onBits M) ≤ rowSpace n M := by
  apply rowSpace_le
  intro i hi
  cases s with
  | swap a b =>
      obtain ⟨ha, hb, _⟩ := hs
      apply vector_mem_rowSpace
      rw [Equiv.swap_apply_def]
      split_ifs <;> omega
  | add a b =>
      obtain ⟨ha, hb, _⟩ := hs
      by_cases hib : i = b
      · have hrow : (RowStep.add a b).onBits M i = fun j => M i j ^^ M a j := by
          funext j
          rw [onBits_add, if_pos hib]
        rw [hrow, vector_xor]
        exact Submodule.add_mem _ (vector_mem_rowSpace hi) (vector_mem_rowSpace ha)
      · have hrow : (RowStep.add a b).onBits M i = M i := by
          funext j
          rw [onBits_add, if_neg hib]
        rw [hrow]
        exact vector_mem_rowSpace hi

/-- Every step is its own inverse. -/
theorem onBits_onBits {M : BitMatrix} {s : RowStep} (hs : s.Within n) : s.onBits (s.onBits M) = M := by
  funext i j
  cases s with
  | swap a b => rw [onBits_swap, onBits_swap, Equiv.swap_apply_self]
  | add a b =>
      obtain ⟨_, _, hab⟩ := hs
      rw [onBits_add, onBits_add, onBits_add, if_neg hab]
      split
      case isTrue => rw [Bool.xor_assoc, Bool.xor_self, Bool.xor_false]
      case isFalse => rfl

theorem rowSpace_runBits {steps : List RowStep} (h : ∀ s ∈ steps, s.Within n) (M : BitMatrix) :
    rowSpace n (runBits steps M) = rowSpace n M := by
  induction steps generalizing M with
  | nil => rfl
  | cons s steps ih =>
      have hs := h s List.mem_cons_self
      rw [runBits_cons, ih fun s' hs' => h s' (List.mem_cons_of_mem s hs')]
      apply le_antisymm (rowSpace_onBits_le hs)
      have hback := rowSpace_onBits_le (M := s.onBits M) hs
      rwa [onBits_onBits hs] at hback

theorem mem_rowSpace_iff {M : BitMatrix} {v : ℕ → ZMod 2} :
    v ∈ rowSpace n M ↔ ∃ c : Fin n → ZMod 2, ∀ p, ∑ i, c i * vector (M i) p = v p := by
  rw [rowSpace, Submodule.mem_span_range_iff_exists_fun]
  refine exists_congr fun c => ?_
  rw [funext_iff]
  refine forall_congr' fun p => ?_
  rw [Finset.sum_apply]
  rfl

/-- Of the rows that are added up, only the owner of a column counts there. -/
theorem sum_of_owned {M : BitMatrix} {p : ℕ} (i : Fin n) (hp : M i p = true)
    (hcol : ∀ r, r ≠ i.val → M r p = false) (c : Fin n → ZMod 2) :
    ∑ i', c i' * vector (M i') p = c i := by
  rw [Finset.sum_eq_single i]
  · simp [vector, hp]
  · intro i' _ hne
    have hval : i'.val ≠ i.val := fun heq => hne (Fin.ext heq)
    simp [vector, hcol i' hval]
  · simp

/-- A unit vector in the row space of a matrix whose rows own columns is one of the rows: the rows
that add up to it all own the same column. -/
theorem Owned.exists_unit {M : BitMatrix} (h : Owned n M)
    (hj : vector (· == j) ∈ rowSpace n M) : ∃ i < n, ∀ k, M i k = (k == j) := by
  obtain ⟨c, hsum⟩ := mem_rowSpace_iff.mp hj
  -- a row that takes part and is not zero owns column `j`
  have hpart : ∀ i : Fin n, c i = 1 → (∃ k, M i k = true) →
      M i j = true ∧ ∀ r, r ≠ i.val → M r j = false := by
    intro i hci hk
    obtain ⟨k, hk⟩ := hk
    obtain hz | ⟨p, hp, hcol⟩ := h i i.isLt
    · rw [hz k] at hk
      exact absurd hk Bool.false_ne_true
    · have hone : ∑ i' : Fin n, c i' * vector (M i') p = 1 := by rw [sum_of_owned i hp hcol, hci]
      rw [hsum p] at hone
      have hpj : p = j := by
        by_contra hne
        simp [vector, hne] at hone
      rw [← hpj]
      exact ⟨hp, hcol⟩
  have hjsum := hsum j
  have hexists : ∃ i : Fin n, c i * vector (M i) j ≠ 0 := by
    by_contra hnone
    simp only [not_exists, not_not] at hnone
    rw [Finset.sum_eq_zero fun i _ => hnone i] at hjsum
    simp [vector] at hjsum
  obtain ⟨i, hi⟩ := hexists
  have hmem : ∀ x : ZMod 2, x ≠ 0 → x = 1 := by decide
  have hci : c i = 1 := hmem _ (left_ne_zero_of_mul hi)
  have hij : M i j = true := by
    by_contra hne
    simp [vector, hne] at hi
  obtain ⟨_, hclean⟩ := hpart i hci ⟨j, hij⟩
  -- no other row takes part
  have hothers : ∀ i' : Fin n, i' ≠ i → ∀ k, c i' * vector (M i') k = 0 := by
    intro i' hne k
    by_contra hterm
    have hci' : c i' = 1 := hmem _ (left_ne_zero_of_mul hterm)
    have hk : M i' k = true := by
      by_contra hfalse
      simp [vector, hfalse] at hterm
    have hone := (hpart i' hci' ⟨k, hk⟩).1
    rw [hclean i' fun heq => hne (Fin.ext heq)] at hone
    exact Bool.false_ne_true hone
  have hrow : vector (M i) = vector (· == j) := by
    funext k
    rw [← hsum k, Finset.sum_eq_single i (fun i' _ hne => hothers i' hne k) (by simp), hci, one_mul]
  exact ⟨i, i.isLt, fun k => congrFun (vector_injective hrow) k⟩

end ZX.ByteMatrix
