import Mathlib
import ZX.ByteMatrix.Elimination
import ZX.Proofs.Matrix.Steps

/-!
# Elimination over two elements

Elimination takes steps between different rows of a binary matrix and ends in the reduced echelon
form, except that zero rows stay where they are: every other row has the only one of the column where
it starts, and the rows start further to the right one after the other. A matrix of this form is left
alone. A permutation is eliminated by swaps alone.
-/
namespace ZX.ByteMatrix

open RowStep

variable {m : ByteMatrix} {n w i j : ℕ}

/-! ## Looking for a pivot -/

theorem findM?_eq_find? {ε α : Type} {p : α → Except ε Bool} {q : α → Bool} {xs : List α}
    (h : ∀ x ∈ xs, p x = .ok (q x)) : xs.findM? p = .ok (xs.find? q) := by
  induction xs with
  | nil => rfl
  | cons x xs ih =>
      have hx := h x List.mem_cons_self
      have hxs := ih fun y hy => h y (List.mem_cons_of_mem x hy)
      rw [List.findM?, hx, List.find?_cons]
      cases q x with
      | true => rfl
      | false => exact hxs

/-- Row `r` stands at or below row `i` and has a one in column `c`. -/
structure IsPivotRow (n : ℕ) (M : BitMatrix) (i c r : ℕ) : Prop where
  le : i ≤ r
  lt : r < n
  one : M r c = true

theorem Rectangular.pivotRow (hm : m.Rectangular n w) (hj : j < w) :
    ∃ o, m.pivotRow i j = .ok o ∧ (∀ r, o = some r → IsPivotRow n m.nonzero i j r) ∧
      (o = none → ∀ r, i ≤ r → r < n → m.nonzero r j = false) := by
  have hfind : m.pivotRow i j = .ok ((List.range' i (m.height - i)).find? (m.nonzero · j)) := by
    apply findM?_eq_find?
    intro r hr
    rw [List.mem_range'_1, ByteMatrix.height, hm.height] at hr
    obtain ⟨x, hx, hnonzero⟩ := hm.entry_eq (i := r) (by omega) hj
    rw [hx, hnonzero]
    rfl
  refine ⟨_, hfind, ?_, ?_⟩
  · intro r hr
    have hmem := List.mem_of_find?_eq_some hr
    rw [List.mem_range'_1, ByteMatrix.height, hm.height] at hmem
    have hone : (fun r => m.nonzero r j) r = true := List.find?_some (p := fun r => m.nonzero r j) hr
    exact ⟨hmem.1, by omega, hone⟩
  · intro hnone r hir hrn
    rw [List.find?_eq_none] at hnone
    have hr := hnone r (by rw [List.mem_range'_1, ByteMatrix.height, hm.height]; omega)
    simpa using hr

theorem Rectangular.findPivot (hm : m.Rectangular n w) (i k : ℕ) :
    ∀ c, c + k ≤ w → ∃ o, m.findPivot i k c = .ok o ∧
      (∀ r c', o = some (r, c') → c ≤ c' ∧ c' < c + k ∧ IsPivotRow n m.nonzero i c' r ∧
        ∀ r' j, i ≤ r' → r' < n → c ≤ j → j < c' → m.nonzero r' j = false) ∧
      (o = none → ∀ r j, i ≤ r → r < n → c ≤ j → j < c + k → m.nonzero r j = false) := by
  induction k with
  | zero =>
      intro c _
      refine ⟨none, rfl, by simp, ?_⟩
      intro _ r j _ _ _ _
      omega
  | succ k ih =>
      intro c hc
      obtain ⟨o, ho, hsome, hnone⟩ := hm.pivotRow (i := i) (j := c) (by omega)
      rw [ByteMatrix.findPivot, ho]
      cases o with
      | some r =>
          refine ⟨some (r, c), rfl, ?_, by simp⟩
          intro r' c' hrc
          cases hrc
          refine ⟨le_rfl, by omega, hsome r rfl, ?_⟩
          intro _ j _ _ _ _
          omega
      | none =>
          obtain ⟨o', ho', hsome', hnone'⟩ := ih (c + 1) (by omega)
          refine ⟨o', ho', ?_, ?_⟩
          · intro r c' hrc
            obtain ⟨hle, hlt, hpivot, hzero⟩ := hsome' r c' hrc
            refine ⟨by omega, by omega, hpivot, ?_⟩
            intro r' j hir hrn hcj hjc
            by_cases hj : j = c
            · subst hj
              exact hnone rfl r' hir hrn
            · exact hzero r' j hir hrn (by omega) hjc
          · intro hn r j hir hrn hcj hjc
            by_cases hj : j = c
            · subst hj
              exact hnone rfl r hir hrn
            · exact hnone' hn r j hir hrn (by omega) (by omega)

theorem Shape.findPivot (hm : m.Shape n w) (i k : ℕ) :
    ∀ c, c + k ≤ w → ∃ o, m.findPivot i k c = .ok o ∧
      (∀ r c', o = some (r, c') → c ≤ c' ∧ c' < c + k ∧ IsPivotRow n m.bit i c' r ∧
        ∀ r' j, i ≤ r' → r' < n → c ≤ j → j < c' → m.bit r' j = false) ∧
      (o = none → ∀ r j, i ≤ r → r < n → c ≤ j → j < c + k → m.bit r j = false) := by
  have hfind := hm.rectangular.findPivot i k
  rwa [hm.nonzero_eq] at hfind

/-! ## Clearing a column -/

theorem Shape.clearColumn {c : ℕ} (hi : i < n) (hc : c < w) (ks : List ℕ) (hks : ks.Nodup)
    (hlt : ∀ k ∈ ks, k < n) (m : ByteMatrix) (hm : m.Shape n w) :
    ∃ m' steps, clearColumn i c ks m = .ok (m', steps) ∧ m'.Shape n w ∧
      m'.bit = runBits steps m.bit ∧
      (∀ s ∈ steps, ∃ k ∈ ks, k ≠ i ∧ m.bit k c = true ∧ s = .add i k) ∧
      ∀ r j, m'.bit r j =
        if r ∈ ks ∧ r ≠ i ∧ m.bit r c = true then m.bit r j ^^ m.bit i j else m.bit r j := by
  induction ks generalizing m with
  | nil => exact ⟨m, [], rfl, hm, rfl, by simp, by simp⟩
  | cons k ks ih =>
      obtain ⟨hk, hks⟩ := List.nodup_cons.mp hks
      have hkn := hlt k List.mem_cons_self
      have hltks : ∀ k' ∈ ks, k' < n := fun k' hk' => hlt k' (List.mem_cons_of_mem k hk')
      rw [ByteMatrix.clearColumn, hm.entry_eq hkn hc]
      by_cases hone : k ≠ i ∧ m.bit k c = true
      · obtain ⟨added, hadd, hshape, hbit⟩ := hm.rowAdd hi hkn
        obtain ⟨m', steps, hok, hm', hrun, hsteps, hentries⟩ := ih hks hltks added hshape
        -- the row that was added to is not among those still to come
        have hother : ∀ r j, r ≠ k → added.bit r j = m.bit r j := by
          intro r j hr
          rw [hbit, onBits_add, if_neg hr]
        have htest : k ≠ i ∧ (if m.bit k c then (1 : UInt8) else 0) ≠ 0 := by simp [hone]
        refine ⟨m', .add i k :: steps, ?_, hm', ?_, ?_, ?_⟩
        · show (if k ≠ i ∧ (if m.bit k c then (1 : UInt8) else 0) ≠ 0 then _ else _) = _
          rw [if_pos htest, hadd]
          show ByteMatrix.clearColumn i c ks added >>= _ = _
          rw [hok]
          rfl
        · rw [runBits_cons, ← hbit]
          exact hrun
        · intro s hs
          rw [List.mem_cons] at hs
          obtain hs | hs := hs
          · exact ⟨k, List.mem_cons_self, hone.1, hone.2, hs⟩
          · obtain ⟨k', hk', hne, hb, hs⟩ := hsteps s hs
            rw [hother k' c (ne_of_mem_of_not_mem hk' hk)] at hb
            exact ⟨k', List.mem_cons_of_mem k hk', hne, hb, hs⟩
        · intro r j
          rw [hentries, hother i j hone.1.symm]
          by_cases hr : r = k
          · subst hr
            rw [if_neg (by simp [hk]), hbit, onBits_add, if_pos rfl,
              if_pos ⟨List.mem_cons_self, hone⟩]
          · rw [hother r j hr, hother r c hr]
            simp [hr]
      · obtain ⟨m', steps, hok, hm', hrun, hsteps, hentries⟩ := ih hks hltks m hm
        have htest : ¬(k ≠ i ∧ (if m.bit k c then (1 : UInt8) else 0) ≠ 0) := by
          cases hb : m.bit k c <;> simp_all
        refine ⟨m', steps, ?_, hm', hrun, ?_, ?_⟩
        · show (if k ≠ i ∧ (if m.bit k c then (1 : UInt8) else 0) ≠ 0 then _ else _) = _
          rw [if_neg htest]
          exact hok
        · intro s hs
          obtain ⟨k', hk', hrest⟩ := hsteps s hs
          exact ⟨k', List.mem_cons_of_mem k hk', hrest⟩
        · intro r j
          rw [hentries]
          by_cases hr : r = k
          · subst hr
            rw [if_neg (by simp [hk]), if_neg (by tauto)]
          · simp [hr]

theorem Shape.raisePivot (hm : m.Shape n w) {r : ℕ} (hi : i < n) (hr : r < n) :
    ∃ m' steps, m.raisePivot i r = .ok (m', steps) ∧ m'.Shape n w ∧
      m'.bit = runBits steps m.bit ∧ (∀ s ∈ steps, s = .swap i r ∧ i ≠ r) ∧
      ∀ k j, m'.bit k j = m.bit (Equiv.swap i r k) j := by
  by_cases hri : r = i
  · subst hri
    refine ⟨m, [], if_pos rfl, hm, rfl, by simp, ?_⟩
    intro k j
    rw [Equiv.swap_self, Equiv.refl_apply]
  · obtain ⟨m', hok, hm', hbit⟩ := hm.rowSwap hi hr
    refine ⟨m', [.swap i r], ?_, hm', hbit, ?_, ?_⟩
    · rw [ByteMatrix.raisePivot, if_neg hri, hok]
      rfl
    · intro s hs
      exact ⟨List.mem_singleton.mp hs, Ne.symm hri⟩
    · intro k j
      rw [hbit, onBits_swap]

/-! ## The whole elimination -/

/-- Every row that is not zero has a column of its own, with no other one in it. -/
def Owned (n : ℕ) (M : BitMatrix) : Prop :=
  ∀ r < n, (∀ j, M r j = false) ∨ ∃ p, M r p = true ∧ ∀ r', r' ≠ r → M r' p = false

/-- The first one of row `r` stands in column `p`. -/
def IsLead (M : BitMatrix) (r p : ℕ) : Prop := M r p = true ∧ ∀ j < p, M r j = false

theorem exists_isLead {M : BitMatrix} {r k : ℕ} (h : M r k = true) : ∃ p, IsLead M r p := by
  have hex : ∃ p, M r p = true := ⟨k, h⟩
  refine ⟨Nat.find hex, Nat.find_spec hex, fun j hj => ?_⟩
  simpa using Nat.find_min hex hj

theorem IsLead.eq_of_isLead {M : BitMatrix} {r p p' : ℕ} (h : IsLead M r p) (h' : IsLead M r p') :
    p = p' := by
  obtain hlt | heq | hlt := lt_trichotomy p p'
  · exact absurd h.1 (by simp [h'.2 p hlt])
  · exact heq
  · exact absurd h'.1 (by simp [h.2 p' hlt])

/-- The reduced echelon form, with zero rows anywhere: the leading ones move to the right from row to
row, and each is the only one of its column. -/
structure Echelon (M : BitMatrix) : Prop where
  own : ∀ {r p}, IsLead M r p → ∀ r', r' ≠ r → M r' p = false
  lt : ∀ {r r' p p'}, r < r' → IsLead M r p → IsLead M r' p' → p < p'

theorem Echelon.owned {M : BitMatrix} (h : Echelon M) (n : ℕ) : Owned n M := by
  intro r _
  by_cases hz : ∀ j, M r j = false
  · exact .inl hz
  · obtain ⟨k, hk⟩ := not_forall.mp hz
    obtain ⟨p, hp⟩ := exists_isLead (Bool.not_eq_false _ |>.mp hk)
    exact .inr ⟨p, hp.1, h.own hp⟩

/-- Leaving rows out keeps the echelon form. -/
theorem Echelon.select {M M' : BitMatrix} (h : Echelon M) {n : ℕ} {f : ℕ → ℕ} (hf : StrictMono f)
    (hM' : ∀ r j, M' r j = true → r < n) (hrow : ∀ r < n, M' r = M (f r)) : Echelon M' := by
  have hlead : ∀ {r p}, IsLead M' r p → IsLead M (f r) p := by
    intro r p hp
    have hr := hrow r (hM' r p hp.1)
    exact ⟨hr ▸ hp.1, fun j hj => hr ▸ hp.2 j hj⟩
  constructor
  · intro r p hp r' hr'
    by_contra hone
    have hone := Bool.not_eq_false _ |>.mp hone
    rw [hrow r' (hM' r' p hone), h.own (hlead hp) (f r') fun hc => hr' (hf.injective hc)] at hone
    exact Bool.false_ne_true hone
  · exact fun hlt hp hp' => h.lt (hf hlt) (hlead hp) (hlead hp')

/-- The rows before `i` are reduced, with their leading ones in the columns before `c`, and the other
rows are zero on these columns. -/
structure PartlyReduced (M : BitMatrix) (i c : ℕ) : Prop where
  lead_lt : ∀ {r p}, r < i → IsLead M r p → p < c
  own : ∀ {r p}, r < i → IsLead M r p → ∀ r', r' ≠ r → M r' p = false
  lt : ∀ {r r' p p'}, r < r' → r' < i → IsLead M r p → IsLead M r' p' → p < p'
  below : ∀ r, i ≤ r → ∀ j < c, M r j = false

/-- A zero row counts as reduced. -/
theorem PartlyReduced.skip {M : BitMatrix} {c : ℕ} (h : PartlyReduced M i c)
    (hz : ∀ j, M i j = false) : PartlyReduced M (i + 1) c := by
  have hlt : ∀ {r p}, r < i + 1 → IsLead M r p → r < i := by
    intro r p hr hp
    by_contra hge
    obtain rfl : r = i := by omega
    exact absurd hp.1 (by simp [hz])
  exact ⟨fun hr hp => h.lead_lt (hlt hr hp) hp, fun hr hp => h.own (hlt hr hp) hp,
    fun hrr hr' hp hp' => h.lt hrr (hlt hr' hp') hp hp', fun r hr => h.below r (by omega)⟩

/-- When the rows that are left are zero, the matrix is reduced. -/
theorem PartlyReduced.echelon {M : BitMatrix} {c : ℕ} (h : PartlyReduced M i c)
    (hz : ∀ r, i ≤ r → ∀ j, M r j = false) : Echelon M := by
  have hlt : ∀ {r p}, IsLead M r p → r < i := by
    intro r p hp
    by_contra hge
    exact absurd hp.1 (by simp [hz r (by omega)])
  exact ⟨fun hp => h.own (hlt hp) hp, fun hrr hp hp' => h.lt hrr (hlt hp') hp hp'⟩

/-- One round: a pivot in column `c'` is raised to row `i` and the column is cleared. -/
theorem PartlyReduced.step {M M' : BitMatrix} {c c' r : ℕ} (h : PartlyReduced M i c) (hcc : c ≤ c')
    (hir : i ≤ r) (hone : M r c' = true)
    (hzero : ∀ r' j, i ≤ r' → c ≤ j → j < c' → M r' j = false)
    (hM' : ∀ k j, M' k j = if k ≠ i ∧ M (Equiv.swap i r k) c' = true
      then M (Equiv.swap i r k) j ^^ M r j else M (Equiv.swap i r k) j) :
    PartlyReduced M' (i + 1) (c' + 1) := by
  have hbefore : ∀ r', i ≤ r' → ∀ j < c', M r' j = false := by
    intro r' hr' j hj
    by_cases hjc : j < c
    · exact h.below r' hr' j hjc
    · exact hzero r' j hr' (by omega) hj
  -- a swap of two rows from `i` on stays among them
  have hswap : ∀ k, i ≤ k → i ≤ Equiv.swap i r k := by
    intro k hk
    rw [Equiv.swap_apply_def]
    split_ifs <;> omega
  have hfix : ∀ k < i, Equiv.swap i r k = k := fun k hk =>
    Equiv.swap_apply_of_ne_of_ne (by omega) (by omega)
  have hcol : ∀ k, k ≠ i → M' k c' = false := by
    intro k hk
    rw [hM']
    by_cases hb : M (Equiv.swap i r k) c' = true
    · rw [if_pos ⟨hk, hb⟩, hb, hone]
      rfl
    · rw [if_neg (by tauto)]
      simpa using hb
  -- nothing changes on the columns before the new pivot
  have hleft : ∀ k, ∀ j < c', M' k j = M (Equiv.swap i r k) j := by
    intro k j hj
    rw [hM', hbefore r hir j hj, Bool.xor_false, ite_self]
  have hlead : IsLead M' i c' := by
    constructor
    · rw [hM', if_neg (by simp), Equiv.swap_apply_left]
      exact hone
    · intro j hj
      rw [hleft i j hj, Equiv.swap_apply_left]
      exact hbefore r hir j hj
  -- the rows above keep their leading ones, and zero rows stay zero
  have habove : ∀ {k p}, k < i → IsLead M' k p → IsLead M k p := by
    intro k p hk hp
    have hnonzero : ∃ j, M k j = true := by
      by_contra hnone
      simp only [not_exists, Bool.not_eq_true] at hnone
      have hp' := hp.1
      rw [hM', hfix k hk, if_neg (by simp [hnone]), hnone] at hp'
      exact Bool.false_ne_true hp'
    obtain ⟨j, hj⟩ := hnonzero
    obtain ⟨p₀, hp₀⟩ := exists_isLead hj
    have hlt := h.lead_lt hk hp₀
    have hp₀' : IsLead M' k p₀ := by
      constructor
      · rw [hleft k p₀ (by omega), hfix k hk]
        exact hp₀.1
      · intro j hj
        rw [hleft k j (by omega), hfix k hk]
        exact hp₀.2 j hj
    rwa [hp.eq_of_isLead hp₀']
  constructor
  case lead_lt =>
    intro k p hk hp
    by_cases hki : k = i
    · subst hki
      have := hp.eq_of_isLead hlead
      omega
    · have := h.lead_lt (by omega) (habove (by omega) hp)
      omega
  case own =>
    intro k p hk hp k' hk'
    by_cases hki : k = i
    · subst hki
      rw [hp.eq_of_isLead hlead]
      exact hcol k' hk'
    · have hp₀ := habove (by omega) hp
      have hlt := h.lead_lt (by omega) hp₀
      rw [hleft k' p (by omega)]
      apply h.own (by omega) hp₀
      intro heq
      rw [Equiv.swap_apply_eq_iff, hfix k (by omega)] at heq
      exact hk' heq
  case lt =>
    intro k k' p p' hkk hk' hp hp'
    have hp₀ := habove (by omega) hp
    by_cases hki : k' = i
    · subst hki
      have := h.lead_lt (by omega) hp₀
      have := hp'.eq_of_isLead hlead
      omega
    · exact h.lt hkk (by omega) hp₀ (habove (by omega) hp')
  case below =>
    intro k hk j hj
    by_cases hjc : j = c'
    · subst hjc
      exact hcol k (by omega)
    · rw [hleft k j (by omega)]
      exact hbefore _ (hswap k (by omega)) j (by omega)

/-- The effect of a round on row `i` with the cursor at `c`: the pivot at row `r` and column `c'` is
raised, and its column is cleared. -/
structure Round (m : ByteMatrix) (n w i c : ℕ) (m' : ByteMatrix) (swaps adds : List RowStep)
    (r c' : ℕ) : Prop where
  shape : m'.Shape n w
  le : c ≤ c'
  lt : c' < w
  pivot : IsPivotRow n m.bit i c' r
  zero : ∀ r' j, i ≤ r' → c ≤ j → j < c' → m.bit r' j = false
  run : m'.bit = runBits (swaps ++ adds) m.bit
  swaps : ∀ s ∈ swaps, s = .swap i r ∧ i ≠ r
  adds : ∀ s ∈ adds, ∃ k < n, k ≠ i ∧ m.bit (Equiv.swap i r k) c' = true ∧ s = .add i k
  entries : ∀ k j, m'.bit k j = if k ≠ i ∧ m.bit (Equiv.swap i r k) c' = true
    then m.bit (Equiv.swap i r k) j ^^ m.bit r j else m.bit (Equiv.swap i r k) j

theorem Shape.all_zero {row : Array UInt8} (hm : m.Shape n w) (hrow : m.rows[i]? = some row) :
    row.all (· = 0) = true ↔ ∀ j, m.bit i j = false := by
  rw [Array.all_eq_true]
  constructor
  · intro hall j
    rw [Bool.eq_false_iff]
    intro hb
    have hj := (hm.lt_of_bit hb).2
    have hjs : j < row.size := by rwa [hm.width i row hrow]
    have hget := hm.getElem?_eq hrow hj
    rw [Array.getElem?_eq_getElem hjs, hb] at hget
    have hzero := hall j hjs
    simp only [Option.some.injEq, if_true] at hget
    simp [hget] at hzero
  · intro hz j hj
    have hget := hm.getElem?_eq hrow (hm.width i row hrow ▸ hj)
    rw [Array.getElem?_eq_getElem hj, hz] at hget
    simpa using hget

/-- The calls of a round on row `i` with the cursor at `c`, and what they return. -/
structure Calls (m : ByteMatrix) (w i c : ℕ) (m' : ByteMatrix) (swaps adds : List RowStep)
    (r c' : ℕ) : Prop where
  lt : c < w
  row : ∃ row, m.row i = .ok row ∧ row.all (· = 0) = false
  findPivot : m.findPivot i (w - c) c = .ok (some (r, c'))
  clear : ∃ raised, m.raisePivot i r = .ok (raised, swaps) ∧
    clearColumn i c' (List.range m.height) raised = .ok (m', adds)

theorem Calls.reduceRows_eq {m' : ByteMatrix} {swaps adds : List RowStep} {c r c' : ℕ}
    (h : Calls m w i c m' swaps adds r c') (is : List ℕ) :
    reduceRows w (i :: is) c m =
      (reduceRows w is (c' + 1) m').map fun x => (x.1, swaps ++ adds ++ x.2) := by
  obtain ⟨row, hrow, hnotall⟩ := h.row
  obtain ⟨raised, hraise, hclear⟩ := h.clear
  rw [reduceRows, if_neg (Nat.not_le.mpr h.lt), hrow]
  show (if row.all (· = 0) = true then _ else _) = _
  rw [hnotall, if_neg Bool.false_ne_true, h.findPivot]
  show m.raisePivot i r >>= _ = _
  rw [hraise]
  show ByteMatrix.clearColumn i c' (List.range m.height) raised >>= _ = _
  rw [hclear]
  rfl

theorem Shape.exists_calls (hm : m.Shape n w) {c k : ℕ} (hi : i < n)
    (hbelow : ∀ r, i ≤ r → ∀ j < c, m.bit r j = false) (hk : m.bit i k = true) :
    ∃ m' swaps adds r c', Round m n w i c m' swaps adds r c' ∧ Calls m w i c m' swaps adds r c' := by
  have hck : c ≤ k := by
    by_contra hlt
    rw [hbelow i le_rfl k (by omega)] at hk
    exact Bool.false_ne_true hk
  have hkw := (hm.lt_of_bit hk).2
  obtain ⟨row, hrowok, hrow⟩ := hm.row_eq hi
  obtain ⟨o, ho, hsome, hnone⟩ := hm.findPivot i (w - c) c (by omega)
  cases o with
  | none =>
      rw [hnone rfl i k le_rfl hi hck (by omega)] at hk
      exact absurd hk Bool.false_ne_true
  | some rc =>
      obtain ⟨r, c'⟩ := rc
      obtain ⟨hcc, hcw, hpivot, hzero⟩ := hsome r c' rfl
      obtain ⟨m₁, swaps, hraise, hm₁, hrun₁, hswaps, hentries₁⟩ := hm.raisePivot hi hpivot.lt
      obtain ⟨m₂, adds, hclear, hm₂, hrun₂, hadds, hentries₂⟩ :=
        Shape.clearColumn hi (c := c') (by omega) (List.range m.height) List.nodup_range
          (by simp [ByteMatrix.height, hm.height]) m₁ hm₁
      have hnotall : row.all (· = 0) = false := by
        rw [Bool.eq_false_iff]
        intro hall
        rw [(hm.all_zero hrow).mp hall k] at hk
        exact Bool.false_ne_true hk
      refine ⟨m₂, swaps, adds, r, c', ?_,
        by omega, ⟨row, hrowok, hnotall⟩, ho, m₁, hraise, hclear⟩
      refine ⟨hm₂, hcc, by omega, hpivot, ?_, ?_, hswaps, ?_, ?_⟩
      · intro r' j hr' hcj hjc
        by_cases hrn : r' < n
        · exact hzero r' j hr' hrn hcj hjc
        · rw [Bool.eq_false_iff]
          intro hb
          exact hrn (hm.lt_of_bit hb).1
      · rw [runBits_append, ← hrun₁]
        exact hrun₂
      · intro s hs
        obtain ⟨k', hk', hne, hb, rfl⟩ := hadds s hs
        rw [List.mem_range, ByteMatrix.height, hm.height] at hk'
        rw [hentries₁] at hb
        exact ⟨k', hk', hne, hb, rfl⟩
      · intro k' j
        rw [hentries₂, hentries₁, hentries₁, hentries₁, Equiv.swap_apply_left]
        by_cases hb : m.bit (Equiv.swap i r k') c' = true
        · have hk'n : k' < m.height := by
            rw [← hentries₁] at hb
            rw [ByteMatrix.height, hm.height]
            exact (hm₁.lt_of_bit hb).1
          simp [hk'n]
        · simp [hb]

theorem Shape.exists_round (hm : m.Shape n w) {c k : ℕ} (hi : i < n)
    (hbelow : ∀ r, i ≤ r → ∀ j < c, m.bit r j = false) (hk : m.bit i k = true) :
    ∃ m' swaps adds r c', Round m n w i c m' swaps adds r c' ∧
      ∀ is, reduceRows w (i :: is) c m =
        (reduceRows w is (c' + 1) m').map fun x => (x.1, swaps ++ adds ++ x.2) := by
  obtain ⟨m', swaps, adds, r, c', hround, hcalls⟩ := hm.exists_calls hi hbelow hk
  exact ⟨m', swaps, adds, r, c', hround, hcalls.reduceRows_eq⟩

theorem Shape.reduceRows_zero (hm : m.Shape n w) {c : ℕ} (hi : i < n) (hc : c < w)
    (hz : ∀ j, m.bit i j = false) (is : List ℕ) :
    reduceRows w (i :: is) c m = reduceRows w is c m := by
  obtain ⟨row, hrowok, hrow⟩ := hm.row_eq hi
  rw [reduceRows, if_neg (by omega), hrowok]
  exact if_pos ((hm.all_zero hrow).mpr hz)

theorem Shape.bit_of_le (hm : m.Shape n w) (hi : n ≤ i) (j : ℕ) : m.bit i j = false := by
  rw [Bool.eq_false_iff]
  intro hb
  have := (hm.lt_of_bit hb).1
  omega

theorem Shape.reduceRows {k : ℕ} :
    ∀ {i c : ℕ} {m : ByteMatrix}, i + k = n → m.Shape n w → PartlyReduced m.bit i c →
      ∃ m' steps, reduceRows w (List.range' i k) c m = .ok (m', steps) ∧ m'.Shape n w ∧
        m'.bit = runBits steps m.bit ∧ (∀ s ∈ steps, s.Within n) ∧ Echelon m'.bit := by
  induction k with
  | zero =>
      intro i c m hin hm hreduced
      exact ⟨m, [], rfl, hm, rfl, by simp, hreduced.echelon fun r hr => hm.bit_of_le (by omega)⟩
  | succ k ih =>
      intro i c m hin hm hreduced
      by_cases hc : c < w
      · by_cases hz : ∀ j, m.bit i j = false
        · rw [List.range'_succ, hm.reduceRows_zero (by omega) hc hz]
          exact ih (by omega) hm (hreduced.skip hz)
        · obtain ⟨j, hj⟩ := not_forall.mp hz
          rw [Bool.not_eq_false] at hj
          obtain ⟨m₁, swaps, adds, r, c', hround, hreduce⟩ :=
            hm.exists_round (by omega) hreduced.below hj
          have hreduced₁ := hreduced.step hround.le hround.pivot.le hround.pivot.one hround.zero
            hround.entries
          obtain ⟨m', steps, hok, hm', hrun, hsteps, hres⟩ := ih (by omega) hround.shape hreduced₁
          refine ⟨m', swaps ++ adds ++ steps, ?_, hm', ?_, ?_, hres⟩
          · rw [List.range'_succ, hreduce, hok]
            rfl
          · rw [runBits_append, ← hround.run]
            exact hrun
          · intro s hs
            rw [List.mem_append, List.mem_append] at hs
            obtain (hs | hs) | hs := hs
            · obtain ⟨rfl, hne⟩ := hround.swaps s hs
              exact ⟨by omega, hround.pivot.lt, hne⟩
            · obtain ⟨k', hk', hne, _, rfl⟩ := hround.adds s hs
              exact ⟨by omega, hk', hne.symm⟩
            · exact hsteps s hs
      · refine ⟨m, [], ?_, hm, rfl, by simp, hreduced.echelon fun r hr j => ?_⟩
        · rw [List.range'_succ, ByteMatrix.reduceRows, if_pos (by omega)]
          rfl
        · -- the cursor is past the last column, so the rows from `i` on are zero
          rw [Bool.eq_false_iff]
          intro hb
          have hjw := (hm.lt_of_bit hb).2
          rw [hreduced.below r hr j (by omega)] at hb
          exact Bool.false_ne_true hb

theorem Rectangular.eliminate_eq (hm : m.Rectangular n w) :
    m.eliminate = ByteMatrix.reduceRows w (List.range' 0 n) 0 m := by
  unfold ByteMatrix.eliminate
  rw [ByteMatrix.height, hm.height, List.range_eq_range']
  by_cases hn : n = 0
  · subst hn
    rfl
  · rw [hm.width_eq (by omega)]

theorem PartlyReduced.start (M : BitMatrix) : PartlyReduced M 0 0 :=
  ⟨fun hr => absurd hr (Nat.not_lt_zero _), fun hr => absurd hr (Nat.not_lt_zero _),
    fun _ hr => absurd hr (Nat.not_lt_zero _), fun _ _ j hj => absurd hj (Nat.not_lt_zero j)⟩

/-- Elimination of a binary matrix succeeds and leads to the echelon form. -/
theorem Shape.eliminate (hm : m.Shape n w) :
    ∃ m' steps, m.eliminate = .ok (m', steps) ∧ m'.Shape n w ∧ m'.bit = runBits steps m.bit ∧
      (∀ s ∈ steps, s.Within n) ∧ Echelon m'.bit := by
  rw [hm.rectangular.eliminate_eq]
  exact Shape.reduceRows (Nat.zero_add n) hm (.start m.bit)

/-! ## Matrices in echelon form -/

/-- A matrix with entries 0 and 1 is known by its size and its ones. -/
theorem Shape.ext {m' : ByteMatrix} (hm : m.Shape n w) (hm' : m'.Shape n w)
    (h : ∀ i j, m.bit i j = m'.bit i j) : m = m' := by
  refine ext_rows fun i => ?_
  by_cases hi : i < n
  · obtain ⟨row, hrow⟩ := hm.exists_row hi
    obtain ⟨row', hrow'⟩ := hm'.exists_row hi
    rw [hrow, hrow', Option.some_inj, ← Array.toList_inj, hm.toList_eq hrow, hm'.toList_eq hrow']
    simp only [h]
  · rw [Array.getElem?_eq_none (by rw [hm.height]; omega),
      Array.getElem?_eq_none (by rw [hm'.height]; omega)]

/-- A round on a matrix in echelon form finds the pivot in place and its column clear. -/
theorem Shape.exists_round_echelon (hm : m.Shape n w) (h : Echelon m.bit) {c k : ℕ} (hi : i < n)
    (hbelow : ∀ r, i ≤ r → ∀ j < c, m.bit r j = false) (hk : m.bit i k = true) :
    ∃ c', IsLead m.bit i c' ∧ ∀ is, ByteMatrix.reduceRows w (i :: is) c m =
      ByteMatrix.reduceRows w is (c' + 1) m := by
  obtain ⟨m', swaps, adds, r, c', hround, hreduce⟩ := hm.exists_round hi hbelow hk
  have hbefore : ∀ r', i ≤ r' → ∀ j < c', m.bit r' j = false := by
    intro r' hr' j hj
    by_cases hjc : j < c
    · exact hbelow r' hr' j hjc
    · exact hround.zero r' j hr' (by omega) hj
  have hlead : IsLead m.bit r c' := ⟨hround.pivot.one, hbefore r hround.pivot.le⟩
  obtain ⟨p, hp⟩ := exists_isLead hk
  -- the pivot is the leading one of its row, and rows below have theirs further to the right
  obtain rfl : r = i := by
    by_contra hne
    have hlt := h.lt (lt_of_le_of_ne hround.pivot.le (Ne.symm hne)) hp hlead
    exact absurd hp.1 (by simp [hbefore i le_rfl p hlt])
  have hswaps : swaps = [] := List.eq_nil_iff_forall_not_mem.mpr fun s hs =>
    (hround.swaps s hs).2 rfl
  have hclear : ∀ k', k' ≠ r → m.bit k' c' = false := h.own hlead
  have hadds : adds = [] := by
    refine List.eq_nil_iff_forall_not_mem.mpr fun s hs => ?_
    obtain ⟨k', -, hne, hone, -⟩ := hround.adds s hs
    rw [Equiv.swap_self, Equiv.refl_apply, hclear k' hne] at hone
    exact Bool.false_ne_true hone
  have hm' : m' = m := hround.shape.ext hm fun k' j => by
    rw [hround.entries, Equiv.swap_self, Equiv.refl_apply, if_neg]
    intro hc
    rw [hclear k' hc.1] at hc
    exact Bool.false_ne_true hc.2
  refine ⟨c', hlead, fun is => ?_⟩
  rw [hreduce, hswaps, hadds, hm']
  cases ByteMatrix.reduceRows w is (c' + 1) m <;> rfl

theorem Shape.reduceRows_echelon (hm : m.Shape n w) (h : Echelon m.bit) {k : ℕ} :
    ∀ {i c : ℕ}, i + k = n → (∀ r, i ≤ r → ∀ j < c, m.bit r j = false) →
      ByteMatrix.reduceRows w (List.range' i k) c m = .ok (m, []) := by
  induction k with
  | zero => exact fun _ _ => rfl
  | succ k ih =>
      intro i c hin hbelow
      rw [List.range'_succ]
      by_cases hc : c < w
      · by_cases hz : ∀ j, m.bit i j = false
        · rw [hm.reduceRows_zero (by omega) hc hz]
          exact ih (by omega) fun r hr => hbelow r (by omega)
        · obtain ⟨j, hj⟩ := not_forall.mp hz
          obtain ⟨c', hlead, hreduce⟩ := hm.exists_round_echelon h (by omega) hbelow
            (Bool.not_eq_false _ |>.mp hj)
          rw [hreduce]
          refine ih (by omega) fun r hr j hj => ?_
          by_contra hone
          obtain ⟨p, hp⟩ := exists_isLead (Bool.not_eq_false _ |>.mp hone)
          have hlt := h.lt (by omega) hlead hp
          exact hone (hp.2 j (by omega))
      · rw [ByteMatrix.reduceRows, if_pos (by omega)]
        rfl

/-- Elimination leaves a matrix in echelon form alone. -/
theorem Shape.eliminate_echelon (hm : m.Shape n w) (h : Echelon m.bit) :
    m.eliminate = .ok (m, []) := by
  rw [hm.rectangular.eliminate_eq]
  exact hm.reduceRows_echelon h (Nat.zero_add n) fun _ _ j hj => absurd hj (Nat.not_lt_zero j)

/-! ## Permutations -/

/-- The matrix of a permutation of the first `n` numbers. -/
def permutationBits (n : ℕ) (σ : Equiv.Perm ℕ) : BitMatrix := fun i j => i < n && σ i == j

/-- A permutation that leaves some numbers alone takes no other number to them. -/
theorem not_apply_of_fixed {σ : Equiv.Perm ℕ} {P : ℕ → Prop} (hfix : ∀ r, P r → σ r = r) {r : ℕ}
    (hr : ¬P r) : ¬P (σ r) := by
  intro hP
  have hsame : σ r = r := σ.injective (hfix _ hP)
  rw [hsame] at hP
  exact hr hP

/-- A round on a permutation that has its first `i` ones in place finds the pivot in column `i`,
clears nothing, and swaps it into place. -/
theorem Round.permutation {σ : Equiv.Perm ℕ} {m₁ : ByteMatrix} {swaps adds : List RowStep}
    {r c : ℕ} (h : Round m n n i i m₁ swaps adds r c) (hi : i < n)
    (hbit : m.bit = permutationBits n σ) (hout : ∀ r, n ≤ r → σ r = r) (hfix : ∀ r < i, σ r = r) :
    c = i ∧ σ r = i ∧ adds = [] ∧ m₁.bit = permutationBits n (σ * Equiv.swap i r) := by
  have hrc : σ r = c := by
    have hpivot := h.pivot.one
    simp only [hbit, permutationBits, Bool.and_eq_true, beq_iff_eq] at hpivot
    exact hpivot.2
  -- the row that has its one in column `i` is still to come, so the pivot is in column `i`
  have hci : c = i := by
    by_contra hne
    have hle := h.le
    have hinv : ¬σ.symm i < i := not_apply_of_fixed (σ := σ.symm)
      (fun s hs => (Equiv.symm_apply_eq σ).mpr (hfix s hs).symm) (lt_irrefl i)
    have hinvlt : ¬n ≤ σ.symm i := not_apply_of_fixed (σ := σ.symm)
      (fun s hs => (Equiv.symm_apply_eq σ).mpr (hout s hs).symm) (not_le.mpr hi)
    have hz := h.zero (σ.symm i) i (not_lt.mp hinv) le_rfl (by omega)
    simp [hbit, permutationBits, not_le.mp hinvlt] at hz
  subst hci
  have hclean : ∀ k, k ≠ c → m.bit (Equiv.swap c r k) c = false := by
    intro k hk
    rw [Bool.eq_false_iff]
    intro hb
    simp only [hbit, permutationBits, Bool.and_eq_true, beq_iff_eq] at hb
    have hkr : Equiv.swap c r k = r := σ.injective (hb.2.trans hrc.symm)
    rw [Equiv.swap_apply_eq_iff, Equiv.swap_apply_right] at hkr
    exact hk hkr
  refine ⟨rfl, hrc, ?_, ?_⟩
  · rw [List.eq_nil_iff_forall_not_mem]
    intro s hs
    obtain ⟨k, _, hne, hb, _⟩ := h.adds s hs
    rw [hclean k hne] at hb
    exact Bool.false_ne_true hb
  · have hswaplt : ∀ k, Equiv.swap c r k < n ↔ k < n := by
      intro k
      have hr := h.pivot.lt
      rw [Equiv.swap_apply_def]
      split_ifs <;> omega
    funext k j
    rw [h.entries, if_neg (by
      intro hc
      rw [hclean k hc.1] at hc
      exact Bool.false_ne_true hc.2), hbit]
    simp [permutationBits, hswaplt]

theorem Shape.reduceRows_permutation {k : ℕ} :
    ∀ {i : ℕ} {m : ByteMatrix} {σ : Equiv.Perm ℕ}, i + k = n → m.Shape n n →
      m.bit = permutationBits n σ → (∀ r, n ≤ r → σ r = r) → (∀ r < i, σ r = r) →
      ∃ m' steps, ByteMatrix.reduceRows n (List.range' i k) i m = .ok (m', steps) ∧
        (∀ s ∈ steps, ∃ a b, s = .swap a b ∧ a < n ∧ b < n ∧ a ≠ b) ∧
        runBits steps m.bit = permutationBits n 1 := by
  induction k with
  | zero =>
      intro i m σ hin hm hbit hout hfix
      have hone : σ = 1 := by
        ext r
        by_cases hr : r < n
        · exact hfix r (by omega)
        · exact hout r (by omega)
      exact ⟨m, [], rfl, by simp, by rw [runBits_nil, hbit, hone]⟩
  | succ k ih =>
      intro i m σ hin hm hbit hout hfix
      have hi : i < n := by omega
      have hbelow : ∀ r, i ≤ r → ∀ j < i, m.bit r j = false := by
        intro r hr j hj
        have hge : ¬σ r < i := not_apply_of_fixed hfix (not_lt.mpr hr)
        have hne : σ r ≠ j := by omega
        simp [hbit, permutationBits, hne]
      have hrow : m.bit i (σ i) = true := by simp [hbit, permutationBits, hi]
      obtain ⟨m₁, swaps, adds, r, c, hround, hreduce⟩ := hm.exists_round hi hbelow hrow
      obtain ⟨rfl, hri, rfl, hbit₁⟩ := hround.permutation hi hbit hout hfix
      have hrlt := hround.pivot.lt
      have hle := hround.pivot.le
      have hout₁ : ∀ s, n ≤ s → (σ * Equiv.swap c r) s = s := by
        intro s hs
        rw [Equiv.Perm.mul_apply, Equiv.swap_apply_of_ne_of_ne (by omega) (by omega)]
        exact hout s hs
      have hfix₁ : ∀ s < c + 1, (σ * Equiv.swap c r) s = s := by
        intro s hs
        rw [Equiv.Perm.mul_apply]
        by_cases hsc : s = c
        · rw [hsc, Equiv.swap_apply_left, hri]
        · rw [Equiv.swap_apply_of_ne_of_ne hsc (by omega)]
          exact hfix s (by omega)
      obtain ⟨m', steps, hok, hswaps, hrun⟩ := ih (by omega) hround.shape hbit₁ hout₁ hfix₁
      refine ⟨m', swaps ++ [] ++ steps, ?_, ?_, ?_⟩
      · rw [List.range'_succ, hreduce, hok]
        rfl
      · intro s hs
        rw [List.append_nil, List.mem_append] at hs
        obtain hs | hs := hs
        · obtain ⟨rfl, hne⟩ := hround.swaps s hs
          exact ⟨c, r, rfl, hi, hrlt, hne⟩
        · exact hswaps s hs
      · rw [runBits_append, ← hround.run]
        exact hrun

/-- A permutation is eliminated by swaps alone, which lead to the identity. -/
theorem Shape.eliminate_permutation {σ : Equiv.Perm ℕ} (hm : m.Shape n n)
    (hbit : m.bit = permutationBits n σ) (hout : ∀ r, n ≤ r → σ r = r) :
    ∃ m' steps, m.eliminate = .ok (m', steps) ∧
      (∀ s ∈ steps, ∃ a b, s = .swap a b ∧ a < n ∧ b < n ∧ a ≠ b) ∧
      runBits steps m.bit = permutationBits n 1 := by
  rw [hm.rectangular.eliminate_eq]
  exact Shape.reduceRows_permutation (Nat.zero_add n) hm hbit hout fun r hr =>
    absurd hr (Nat.not_lt_zero r)

end ZX.ByteMatrix
