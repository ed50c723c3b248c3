import Mathlib
import ZX.Proofs.Matrix.RowSpace

/-!
# The canonical form of a row space

The rows of a matrix in echelon form start in exactly those columns where some vector of its row space
starts, and each of them is the only vector of the space that starts there and is zero in the other
ones of these columns. So the nonzero rows, in their order, are known from the row space alone, and
elimination brings all matrices with one row space to the same nonzero rows.

The rows are visited with one column cursor for all of them. From the cursor on, the rows that are
still to come hold everything that is left of the row space: a row that is not zero when it is visited
finds a pivot, and one that is zero stays zero.
-/
namespace ZX.ByteMatrix

open RowStep Relation

variable {m m' m₀ : ByteMatrix} {M : BitMatrix} {n n' w i c p q : ℕ} {x y : ℕ → Bool}

/-! ## Rows that the space determines -/

/-- The first one of a row stands in column `p`. -/
def StartsAt (x : ℕ → Bool) (p : ℕ) : Prop := x p = true ∧ ∀ j < p, x j = false

theorem exists_startsAt (h : x p = true) : ∃ q, StartsAt x q :=
  exists_isLead (M := fun _ => x) (r := 0) h

/-- A vector of the space that is zero wherever a vector of the space starts in another column than
itself. -/
structure IsReducedIn (S : Submodule (ZMod 2) (ℕ → ZMod 2)) (x : ℕ → Bool) : Prop where
  mem : vector x ∈ S
  start : ∃ p, StartsAt x p ∧ ∀ y q, vector y ∈ S → StartsAt y q → q ≠ p → x q = false

/-- A vector of the row space starts where one of the rows does. -/
theorem Echelon.exists_isLead_of_mem (h : Echelon M) (hy : vector y ∈ rowSpace n M)
    (hq : StartsAt y q) : ∃ r < n, IsLead M r q := by
  obtain ⟨c, hsum⟩ := mem_rowSpace_iff.mp hy
  have hone : ∑ i, c i * vector (M i) q ≠ 0 := by
    rw [hsum, vector, hq.1]
    exact one_ne_zero
  obtain ⟨i, _, hi⟩ := Finset.exists_ne_zero_of_sum_ne_zero hone
  have hiq : M i q = true := by
    by_contra hne
    simp [vector, hne] at hi
  obtain ⟨p, hp⟩ := exists_isLead hiq
  -- row `i` takes part and owns the column where it starts, so the sum has a one there
  have hyp : y p = true := by
    have hcoeff := sum_of_owned i hp.1 (h.own hp) c
    by_contra hne
    rw [hsum, vector, if_neg hne] at hcoeff
    exact left_ne_zero_of_mul hi hcoeff.symm
  have hpq : p = q := by
    apply le_antisymm
    · by_contra hlt
      rw [hp.2 q (by omega)] at hiq
      exact Bool.false_ne_true hiq
    · by_contra hlt
      rw [hq.2 p (by omega)] at hyp
      exact Bool.false_ne_true hyp
  rw [← hpq]
  exact ⟨i, i.isLt, hp⟩

theorem Echelon.isReducedIn_row (h : Echelon M) {r : ℕ} (hr : r < n) (hp : IsLead M r p) :
    IsReducedIn (rowSpace n M) (M r) := by
  refine ⟨vector_mem_rowSpace hr, p, hp, ?_⟩
  intro y q hy hq hqp
  obtain ⟨r', _, hr'⟩ := h.exists_isLead_of_mem hy hq
  apply h.own hr'
  intro heq
  rw [← heq] at hr'
  exact hqp (hr'.eq_of_isLead hp)

/-- A reduced vector is the row that starts in the same column: where their sum would start, both are
zero. -/
theorem Echelon.exists_row_eq (h : Echelon M) (hx : IsReducedIn (rowSpace n M) x) :
    ∃ r < n, M r = x := by
  obtain ⟨p, hp, hothers⟩ := hx.start
  obtain ⟨r, hrn, hr⟩ := h.exists_isLead_of_mem hx.mem hp
  refine ⟨r, hrn, ?_⟩
  by_contra hne
  obtain ⟨j, hj⟩ := Function.ne_iff.mp hne
  have hsum : (fun j => x j ^^ M r j) j = true := by
    cases hxj : x j <;> cases hrj : M r j <;> simp_all
  obtain ⟨q, hq⟩ := exists_startsAt (x := fun j => x j ^^ M r j) hsum
  have hmem : vector (fun j => x j ^^ M r j) ∈ rowSpace n M := by
    rw [vector_xor]
    exact Submodule.add_mem _ hx.mem (vector_mem_rowSpace hrn)
  obtain ⟨r', hr'n, hr'⟩ := h.exists_isLead_of_mem hmem hq
  have hzero : (x q ^^ M r q) = false := by
    by_cases hrr : r' = r
    · subst hrr
      rw [hr'.eq_of_isLead hr, hp.1, hr.1]
      rfl
    · have hqp : q ≠ p := by
        intro heq
        have hcol := h.own hr' r (Ne.symm hrr)
        rw [heq, hr.1] at hcol
        exact Bool.false_ne_true hcol.symm
      rw [hothers (M r') q (vector_mem_rowSpace hr'n) hr' hqp, h.own hr' r (Ne.symm hrr)]
      rfl
  exact absurd hq.1 (by simp [hzero])

/-! ## The nonzero rows -/

def nonzeroRows (m : ByteMatrix) : List (Array UInt8) :=
  m.rows.toList.filter fun row => !row.all (· = 0)

/-- The ones of a row. -/
def ones (row : Array UInt8) : ℕ → Bool := fun j => row[j]? == some 1

theorem bit_eq_ones {row : Array UInt8} (hrow : m.rows[i]? = some row) : m.bit i = ones row := by
  funext j
  rw [bit, hrow]
  rfl

theorem Shape.mem_nonzeroRows (hm : m.Shape n w) {row : Array UInt8} :
    row ∈ m.nonzeroRows ↔ ∃ i < n, m.rows[i]? = some row ∧ ∃ p, IsLead m.bit i p := by
  rw [nonzeroRows, List.mem_filter, Array.mem_toList_iff, Array.mem_iff_getElem?]
  constructor
  · rintro ⟨⟨i, hi⟩, hnot⟩
    refine ⟨i, hm.height ▸ (Array.getElem?_eq_some_iff.mp hi).1, hi, ?_⟩
    by_contra hnone
    have hall : row.all (· = 0) = true := by
      rw [hm.all_zero hi]
      intro j
      by_contra hj
      exact hnone (exists_isLead (Bool.not_eq_false _ |>.mp hj))
    rw [hall] at hnot
    exact absurd hnot (by decide)
  · rintro ⟨i, _, hi, p, hp⟩
    refine ⟨⟨i, hi⟩, ?_⟩
    rw [Bool.not_eq_true', Bool.eq_false_iff]
    intro hall
    have hz := (hm.all_zero hi).mp hall p
    rw [hp.1] at hz
    exact Bool.false_ne_true hz.symm

theorem Shape.mem_nonzeroRows_of_rowSpace_eq (hm : m.Shape n w) (hm' : m'.Shape n' w)
    (h : Echelon m.bit) (h' : Echelon m'.bit) (hspace : rowSpace n m.bit = rowSpace n' m'.bit)
    {row : Array UInt8} (hrow : row ∈ m.nonzeroRows) : row ∈ m'.nonzeroRows := by
  obtain ⟨i, hi, hrow, p, hp⟩ := hm.mem_nonzeroRows.mp hrow
  have hreduced := h.isReducedIn_row hi hp
  rw [hspace] at hreduced
  obtain ⟨r, hr, hbits⟩ := h'.exists_row_eq hreduced
  obtain ⟨row', hrow'⟩ := hm'.exists_row hr
  have hsame : row' = row := by
    rw [← Array.toList_inj, hm'.toList_eq hrow', hm.toList_eq hrow, hbits]
  refine hm'.mem_nonzeroRows.mpr ⟨r, hr, hsame ▸ hrow', p, ?_⟩
  rw [IsLead, hbits]
  exact hp

/-- The rows start one after the other from left to right. -/
theorem Echelon.pairwise_nonzeroRows (h : Echelon m.bit) :
    m.nonzeroRows.Pairwise fun row row' =>
      ∀ p p', StartsAt (ones row) p → StartsAt (ones row') p' → p < p' := by
  apply List.Pairwise.filter
  rw [List.pairwise_iff_getElem]
  intro i j hi hj hij p p' hp hp'
  have hrow : ∀ k (hk : k < m.rows.toList.length), m.bit k = ones m.rows.toList[k] := fun k hk =>
    bit_eq_ones (by rw [← Array.getElem?_toList, List.getElem?_eq_getElem hk])
  rw [← hrow i hi] at hp
  rw [← hrow j hj] at hp'
  exact h.lt hij hp hp'

theorem Shape.nodup_nonzeroRows (hm : m.Shape n w) (h : Echelon m.bit) : m.nonzeroRows.Nodup := by
  refine h.pairwise_nonzeroRows.imp_of_mem ?_
  intro row row' hrow _ hlt heq
  obtain ⟨i, _, hi, p, hp⟩ := hm.mem_nonzeroRows.mp hrow
  rw [IsLead, bit_eq_ones hi] at hp
  rw [← heq] at hlt
  exact absurd (hlt p p hp hp) (lt_irrefl p)

/-- Matrices in echelon form with one row space have the same nonzero rows. -/
theorem Shape.nonzeroRows_eq (hm : m.Shape n w) (hm' : m'.Shape n' w) (h : Echelon m.bit)
    (h' : Echelon m'.bit) (hspace : rowSpace n m.bit = rowSpace n' m'.bit) :
    m.nonzeroRows = m'.nonzeroRows := by
  have hperm : m.nonzeroRows.Perm m'.nonzeroRows := by
    rw [List.perm_ext_iff_of_nodup (hm.nodup_nonzeroRows h) (hm'.nodup_nonzeroRows h')]
    intro row
    exact ⟨hm.mem_nonzeroRows_of_rowSpace_eq hm' h h' hspace,
      hm'.mem_nonzeroRows_of_rowSpace_eq hm h' h hspace.symm⟩
  refine hperm.eq_of_pairwise ?_ h.pairwise_nonzeroRows h'.pairwise_nonzeroRows
  intro row row' hrow hrow' hlt hgt
  obtain ⟨i, _, hi, p, hp⟩ := hm.mem_nonzeroRows.mp hrow
  obtain ⟨i', _, hi', p', hp'⟩ := hm'.mem_nonzeroRows.mp hrow'
  rw [IsLead, bit_eq_ones hi] at hp
  rw [IsLead, bit_eq_ones hi'] at hp'
  exact absurd (hlt p p' hp hp') (lt_asymm (hgt p' p hp' hp))

/-! ## Visits -/

/-- The elimination at one of the rows: the column of the cursor and the matrix as it stands. -/
structure Visit where
  row : ℕ
  col : ℕ
  matrix : ByteMatrix

/-- From a visit to the next one. A zero row is passed over, and with any other row a round is made. -/
inductive Visit.Next (w : ℕ) : Visit → Visit → Prop
  | skip {i c : ℕ} {m : ByteMatrix} {row : Array UInt8} : c < w → m.row i = .ok row →
      row.all (· = 0) = true → Next w ⟨i, c, m⟩ ⟨i + 1, c, m⟩
  | round {i c r c' : ℕ} {m m' : ByteMatrix} {swaps adds : List RowStep} :
      Calls m w i c m' swaps adds r c' → Next w ⟨i, c, m⟩ ⟨i + 1, c' + 1, m'⟩

/-- The visits of an elimination. -/
def Visit.Reaches (w : ℕ) : Visit → Visit → Prop := ReflTransGen (Visit.Next w)

namespace Visit

variable {v v' : Visit}

theorem Next.row_eq (h : Next w v v') : v'.row = v.row + 1 := by
  cases h <;> rfl

/-- The rest of the rows is reduced from the next visit on. -/
theorem Next.reduceRows_eq (h : Next w v v') (is : List ℕ) :
    ∃ steps, reduceRows w (v.row :: is) v.col v.matrix =
      (reduceRows w is v'.col v'.matrix).map fun x => (x.1, steps ++ x.2) := by
  cases h with
  | @skip i c m row hc hrow hall =>
      refine ⟨[], ?_⟩
      rw [reduceRows, if_neg (Nat.not_le.mpr hc), hrow]
      refine (if_pos hall).trans ?_
      cases reduceRows w is c m <;> rfl
  | @round i c r c' m m' swaps adds hcalls => exact ⟨swaps ++ adds, hcalls.reduceRows_eq is⟩

/-- What holds at every visit: the rows before are reduced, and the others are zero up to the cursor. -/
structure Reduced (n w : ℕ) (v : Visit) : Prop where
  shape : v.matrix.Shape n w
  partly : PartlyReduced v.matrix.bit v.row v.col

end Visit

/-- The calls of a round determine what it does. -/
theorem Shape.round_of_calls {swaps adds : List RowStep} {r c' : ℕ} (hm : m.Shape n w) (hi : i < n)
    (hbelow : ∀ r, i ≤ r → ∀ j < c, m.bit r j = false) (h : Calls m w i c m' swaps adds r c') :
    Round m n w i c m' swaps adds r c' := by
  obtain ⟨row, hrow, hnotall⟩ := h.row
  have hk : ∃ k, m.bit i k = true := by
    by_contra hnone
    simp only [not_exists, Bool.not_eq_true] at hnone
    rw [(hm.all_zero (inRange_eq_ok.mp hrow)).mpr hnone] at hnotall
    exact Bool.false_ne_true hnotall.symm
  obtain ⟨k, hk⟩ := hk
  obtain ⟨m₁, swaps₁, adds₁, r₁, c₁, hround, hcalls⟩ := hm.exists_calls hi hbelow hk
  have hpivot := hcalls.findPivot
  rw [h.findPivot] at hpivot
  cases hpivot
  obtain ⟨raised, hraise, hclear⟩ := h.clear
  obtain ⟨raised₁, hraise₁, hclear₁⟩ := hcalls.clear
  rw [hraise] at hraise₁
  cases hraise₁
  rw [hclear] at hclear₁
  cases hclear₁
  exact hround

namespace Visit

variable {v v' : Visit}

theorem Next.row_lt (h : Next w v v') (hv : v.Reduced n w) : v.row < n := by
  rw [← hv.shape.height]
  cases h with
  | skip _ hrow _ => exact (Array.getElem?_eq_some_iff.mp (inRange_eq_ok.mp hrow)).1
  | round hcalls =>
      obtain ⟨row, hrow, _⟩ := hcalls.row
      exact (Array.getElem?_eq_some_iff.mp (inRange_eq_ok.mp hrow)).1

theorem Next.reduced (h : Next w v v') (hv : v.Reduced n w) : v'.Reduced n w := by
  have hlt := h.row_lt hv
  cases h with
  | skip _ hrow hall =>
      have hz := (hv.shape.all_zero (inRange_eq_ok.mp hrow)).mp hall
      exact ⟨hv.shape, hv.partly.skip hz⟩
  | round hcalls =>
      have hround := hv.shape.round_of_calls hlt hv.partly.below hcalls
      exact ⟨hround.shape, hv.partly.step hround.le hround.pivot.le hround.pivot.one hround.zero
        hround.entries⟩

/-- A row that is not zero finds a pivot. -/
theorem Reduced.exists_calls (hv : v.Reduced n w) {k : ℕ} (hk : v.matrix.bit v.row k = true) :
    ∃ m' swaps adds r c', Calls v.matrix w v.row v.col m' swaps adds r c' := by
  obtain ⟨m', swaps, adds, r, c', _, hcalls⟩ :=
    hv.shape.exists_calls (hv.shape.lt_of_bit hk).1 hv.partly.below hk
  exact ⟨m', swaps, adds, r, c', hcalls⟩

theorem Reduced.exists_next (hv : v.Reduced n w) (hrow : v.row < n) (hcol : v.col < w) :
    ∃ v', Next w v v' := by
  by_cases hz : ∀ j, v.matrix.bit v.row j = false
  · obtain ⟨row, hok, hget⟩ := hv.shape.row_eq hrow
    exact ⟨_, .skip hcol hok ((hv.shape.all_zero hget).mpr hz)⟩
  · obtain ⟨k, hk⟩ := not_forall.mp hz
    obtain ⟨m', swaps, adds, r, c', hcalls⟩ := hv.exists_calls (Bool.not_eq_false _ |>.mp hk)
    exact ⟨_, .round hcalls⟩

/-- A zero row that has been visited is neither exchanged nor added to: the pivots stand below it, and
it has nothing in their columns. -/
theorem Next.zero_row (h : Next w v v') (hv : v.Reduced n w) (hi : i ≤ v.row)
    (hz : ∀ j, v.matrix.bit i j = false) (j : ℕ) : v'.matrix.bit i j = false := by
  have hlt := h.row_lt hv
  cases h with
  | skip => exact hz j
  | @round i' c r c' m m' swaps adds hcalls =>
      have hround := hv.shape.round_of_calls hlt hv.partly.below hcalls
      have hne : i ≠ i' := by
        rintro rfl
        obtain ⟨row, hrow, hnotall⟩ := hcalls.row
        rw [(hv.shape.all_zero (inRange_eq_ok.mp hrow)).mpr hz] at hnotall
        exact Bool.false_ne_true hnotall.symm
      have hle : i' ≤ r := hround.pivot.le
      have hi : i ≤ i' := hi
      have hfix : Equiv.swap i' r i = i := Equiv.swap_apply_of_ne_of_ne hne (by omega)
      rw [hround.entries, hfix, if_neg (by simp [hz])]
      exact hz j

theorem Reaches.reduced (h : Reaches w v v') (hv : v.Reduced n w) : v'.Reduced n w := by
  induction h with
  | refl => exact hv
  | tail _ hnext ih => exact hnext.reduced ih

theorem Reaches.zero_row (h : Reaches w v v') (hv : v.Reduced n w)
    (hz : ∀ j, v.matrix.bit v.row j = false) (j : ℕ) : v'.matrix.bit v.row j = false := by
  have hkept : v.row ≤ v'.row ∧ ∀ j, v'.matrix.bit v.row j = false := by
    induction h with
    | refl => exact ⟨le_rfl, hz⟩
    | tail hreach hnext ih =>
        refine ⟨?_, hnext.zero_row (Reaches.reduced hreach hv) ih.1 ih.2⟩
        rw [hnext.row_eq]
        exact Nat.le_succ_of_le ih.1
  exact hkept.2 j

/-- The elimination from a visit on is that of the visits it leads to, with more steps in front. -/
theorem Reaches.reduceRows_eq (h : Reaches w v v') (hv : v.Reduced n w) :
    ∃ steps, reduceRows w (List.range' v.row (n - v.row)) v.col v.matrix =
      (reduceRows w (List.range' v'.row (n - v'.row)) v'.col v'.matrix).map
        fun x => (x.1, steps ++ x.2) := by
  induction h with
  | refl =>
      refine ⟨[], ?_⟩
      cases reduceRows w (List.range' v.row (n - v.row)) v.col v.matrix <;> rfl
  | @tail v₁ v₂ hreach hnext ih =>
      obtain ⟨steps, hsteps⟩ := ih
      have hlt := hnext.row_lt (Reaches.reduced hreach hv)
      have hrange : List.range' v₁.row (n - v₁.row) = v₁.row :: List.range' v₂.row (n - v₂.row) := by
        rw [hnext.row_eq, show n - v₁.row = n - (v₁.row + 1) + 1 by omega, List.range'_succ]
      obtain ⟨steps', hsteps'⟩ := hnext.reduceRows_eq (List.range' v₂.row (n - v₂.row))
      refine ⟨steps ++ steps', ?_⟩
      rw [hsteps, hrange, hsteps']
      cases reduceRows w (List.range' v₂.row (n - v₂.row)) v₂.col v₂.matrix with
      | ok x => simp [Except.map]
      | error e => rfl

/-- The elimination ends at one of its visits, after the last row or the last column. -/
theorem Reduced.exists_last {k : ℕ} {steps : List RowStep} (hv : v.Reduced n w) (hk : v.row + k = n)
    (hrun : reduceRows w (List.range' v.row k) v.col v.matrix = .ok (m₀, steps)) :
    ∃ v', Reaches w v v' ∧ v'.matrix = m₀ ∧ (v'.row = n ∨ w ≤ v'.col) := by
  induction k generalizing v steps with
  | zero =>
      cases hrun
      exact ⟨v, .refl, rfl, .inl hk⟩
  | succ k ih =>
      by_cases hcol : v.col < w
      · obtain ⟨v₁, hnext⟩ := hv.exists_next (by omega) hcol
        have hrow := hnext.row_eq
        obtain ⟨done, hdone⟩ := hnext.reduceRows_eq (List.range' v₁.row k)
        rw [List.range'_succ, ← hrow, hdone] at hrun
        cases hrest : reduceRows w (List.range' v₁.row k) v₁.col v₁.matrix with
        | error e =>
            rw [hrest] at hrun
            cases hrun
        | ok x =>
            rw [hrest] at hrun
            cases hrun
            obtain ⟨v', hreach, hlast⟩ := ih (hnext.reduced hv) (by omega) hrest
            exact ⟨v', .head hnext hreach, hlast⟩
      · have hend : w ≤ v.col := Nat.not_lt.mp hcol
        rw [List.range'_succ, reduceRows, if_pos hend] at hrun
        cases hrun
        exact ⟨v, .refl, rfl, .inr hend⟩

end Visit

/-- Elimination computes the canonical form of the row space. The result is in reduced echelon form and
has the row space of the matrix; whatever other matrix of this width has the same row space comes to
the same nonzero rows, and the result itself is left alone. The visits lead to the result. At each of
them, a row that is not zero finds a pivot, and one that is zero stays so. -/
theorem eliminate_canonical (hm : m.Shape n w) :
    ∃ m₀ steps, m.eliminate = .ok (m₀, steps) ∧ m₀.Shape n w ∧
      rowSpace n m₀.bit = rowSpace n m.bit ∧ Echelon m₀.bit ∧
      (∃ v, Visit.Reaches w ⟨0, 0, m⟩ v ∧ v.matrix = m₀ ∧ (v.row = n ∨ w ≤ v.col)) ∧
      (∀ v, Visit.Reaches w ⟨0, 0, m⟩ v →
        (∃ done, m.eliminate = (reduceRows w (List.range' v.row (n - v.row)) v.col v.matrix).map
          fun x => (x.1, done ++ x.2)) ∧
        ((∃ k, v.matrix.bit v.row k = true) → v.col < w ∧
          ∃ pivot, v.matrix.findPivot v.row (w - v.col) v.col = .ok (some pivot)) ∧
        ((∀ k, v.matrix.bit v.row k = false) →
          (∀ v', Visit.Reaches w v v' → ∀ k, v'.matrix.bit v.row k = false) ∧
            ∀ k, m₀.bit v.row k = false)) ∧
      (∀ (n' : ℕ) (m' : ByteMatrix), m'.Shape n' w → rowSpace n' m'.bit = rowSpace n m.bit →
        ∃ m₀' steps', m'.eliminate = .ok (m₀', steps') ∧ m₀'.nonzeroRows = m₀.nonzeroRows) ∧
      m₀.eliminate = .ok (m₀, []) := by
  obtain ⟨m₀, steps, hok, hm₀, hrun, hwithin, hechelon⟩ := hm.eliminate
  have hspace : rowSpace n m₀.bit = rowSpace n m.bit := by rw [hrun, rowSpace_runBits hwithin]
  have hstart : Visit.Reduced n w ⟨0, 0, m⟩ := ⟨hm, .start m.bit⟩
  refine ⟨m₀, steps, hok, hm₀, hspace, hechelon, ?_, ?_, ?_, hm₀.eliminate_echelon hechelon⟩
  · exact hstart.exists_last (Nat.zero_add n) (hm.rectangular.eliminate_eq.symm.trans hok)
  · intro v hv
    have hreduced := hv.reduced hstart
    obtain ⟨done, hdone⟩ := hv.reduceRows_eq hstart
    have hrest : m.eliminate = (reduceRows w (List.range' v.row (n - v.row)) v.col v.matrix).map
        fun x => (x.1, done ++ x.2) := by
      rw [hm.rectangular.eliminate_eq, ← hdone]
      rfl
    refine ⟨⟨done, hrest⟩, ?_, ?_⟩
    · rintro ⟨k, hk⟩
      obtain ⟨m', swaps, adds, r, c', hcalls⟩ := hreduced.exists_calls hk
      exact ⟨hcalls.lt, (r, c'), hcalls.findPivot⟩
    · intro hz
      refine ⟨fun v' hv' => hv'.zero_row hreduced hz, ?_⟩
      by_cases hrow : v.row < n
      · -- the elimination ends at a visit that this one leads to
        rw [hok] at hrest
        cases hlast : reduceRows w (List.range' v.row (n - v.row)) v.col v.matrix with
        | error e =>
            rw [hlast] at hrest
            cases hrest
        | ok x =>
            rw [hlast] at hrest
            cases hrest
            obtain ⟨v', hv', hmatrix, _⟩ := hreduced.exists_last (by omega) hlast
            rw [← hmatrix]
            exact hv'.zero_row hreduced hz
      · exact hm₀.bit_of_le (by omega)
  · intro n' m' hm' hsame
    obtain ⟨m₀', steps', hok', hm₀', hrun', hwithin', hechelon'⟩ := hm'.eliminate
    refine ⟨m₀', steps', hok', hm₀'.nonzeroRows_eq hm₀ hechelon' hechelon ?_⟩
    rw [hspace, hrun', rowSpace_runBits hwithin', hsame]

/-- A zero row above, and below it two equal rows, of which the second is zero when it is visited. -/
def gapped : ByteMatrix := ⟨#[#[0, 0, 0, 0], #[0, 1, 1, 0], #[0, 1, 1, 0], #[0, 0, 1, 1]]⟩

theorem eliminate_canonical_gapped : gapped.Shape 4 4 ∧
    ∃ m₀ steps exchanged, gapped.eliminate = .ok (m₀, steps) ∧
      rowSpace 4 m₀.bit = rowSpace 4 gapped.bit ∧ Echelon m₀.bit ∧
      (∀ k, m₀.bit 0 k = false) ∧
      (∃ pivot, gapped.findPivot 1 4 0 = .ok (some pivot)) ∧
      gapped.rowSwap 0 3 = .ok exchanged ∧
      (∃ m₀' steps', exchanged.eliminate = .ok (m₀', steps') ∧ m₀'.nonzeroRows = m₀.nonzeroRows) ∧
      m₀.eliminate = .ok (m₀, []) := by
  have hshape : gapped.Shape 4 4 := by decide
  obtain ⟨m₀, steps, hok, _, hspace, hechelon, _, hvisits, hunique, hagain⟩ :=
    eliminate_canonical hshape
  have hzero : ∀ k, gapped.bit 0 k = false := (hshape.all_zero (i := 0) rfl).mp (by decide +kernel)
  -- the first row is passed over
  have hnext : Visit.Reaches 4 ⟨0, 0, gapped⟩ ⟨1, 0, gapped⟩ :=
    .single (.skip (by decide) rfl (by decide +kernel))
  obtain ⟨exchanged, hswap, hm', hbit⟩ := hshape.rowSwap (a := 0) (b := 3) (by decide) (by decide)
  have hwithin : ∀ s ∈ [RowStep.swap 0 3], s.Within 4 := by decide
  have hsame : rowSpace 4 exchanged.bit = rowSpace 4 gapped.bit := by
    rw [hbit]
    exact rowSpace_runBits hwithin gapped.bit
  refine ⟨hshape, m₀, steps, exchanged, hok, hspace, hechelon, ?_, ?_, hswap,
    hunique 4 exchanged hm' hsame, hagain⟩
  · exact ((hvisits _ .refl).2.2 hzero).2
  · exact ((hvisits _ hnext).2.1 ⟨1, rfl⟩).2

end ZX.ByteMatrix
