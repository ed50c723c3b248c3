import Mathlib
import ZX.ByteMatrix.Basic
import ZX.Proofs.Outcome

/-!
# Matrices over two elements

A rectangular byte matrix with entries 0 and 1 is read as a function of row and column, and a row
step acts on such functions. A unit row has its only one in one column.
-/
namespace ZX

/-- Entries of a matrix over two elements. -/
abbrev BitMatrix := ℕ → ℕ → Bool

namespace RowStep

def onBits : RowStep → BitMatrix → BitMatrix
  | .swap a b, M => fun i => M (Equiv.swap a b i)
  | .add s t, M => fun i j => if i = t then M i j ^^ M s j else M i j

theorem onBits_swap (a b : ℕ) (M : BitMatrix) (i j : ℕ) :
    (RowStep.swap a b).onBits M i j = M (Equiv.swap a b i) j := rfl

theorem onBits_add (s t : ℕ) (M : BitMatrix) (i j : ℕ) :
    (RowStep.add s t).onBits M i j = if i = t then M i j ^^ M s j else M i j := rfl

/-- The step is between two of the first `n` rows. -/
def Within (n : ℕ) : RowStep → Prop
  | .swap a b => a < n ∧ b < n ∧ a ≠ b
  | .add a b => a < n ∧ b < n ∧ a ≠ b

instance (n : ℕ) (step : RowStep) : Decidable (step.Within n) :=
  match step with
  | .swap a b => inferInstanceAs (Decidable (a < n ∧ b < n ∧ a ≠ b))
  | .add a b => inferInstanceAs (Decidable (a < n ∧ b < n ∧ a ≠ b))

def runBits (steps : List RowStep) (M : BitMatrix) : BitMatrix :=
  steps.foldl (fun M s => s.onBits M) M

@[simp] theorem runBits_nil (M : BitMatrix) : runBits [] M = M := rfl

@[simp] theorem runBits_cons (s : RowStep) (steps : List RowStep) (M : BitMatrix) :
    runBits (s :: steps) M = runBits steps (s.onBits M) := rfl

theorem runBits_append (steps steps' : List RowStep) (M : BitMatrix) :
    runBits (steps ++ steps') M = runBits steps' (runBits steps M) := List.foldl_append

end RowStep

namespace ByteMatrix

open RowStep

variable {m : ByteMatrix} {n w i j : ℕ}

def bit (m : ByteMatrix) (i j : ℕ) : Bool := (m.rows[i]?.bind (·[j]?)) == some 1

/-- The entries that are not zero. -/
def nonzero (m : ByteMatrix) : BitMatrix := fun i j => (m.rows[i]?.bind (·[j]?)).any (· ≠ 0)

theorem ext_rows {m' : ByteMatrix} (h : ∀ i : ℕ, m.rows[i]? = m'.rows[i]?) : m = m' := by
  cases m
  cases m'
  exact congrArg ByteMatrix.mk (Array.ext_getElem? h)

/-- `n` rows of `w` bytes each. -/
structure Rectangular (m : ByteMatrix) (n w : ℕ) : Prop where
  height : m.rows.size = n
  width : ∀ row ∈ m.rows, row.size = w

instance (m : ByteMatrix) (n w : ℕ) : Decidable (m.Rectangular n w) :=
  decidable_of_iff (m.rows.size = n ∧ ∀ row ∈ m.rows, row.size = w)
    ⟨fun h => ⟨h.1, h.2⟩, fun h => ⟨h.height, h.width⟩⟩

namespace Rectangular

theorem size_eq {row : Array UInt8} (hm : m.Rectangular n w) (hrow : m.rows[i]? = some row) :
    row.size = w :=
  hm.width row (Array.mem_of_getElem? hrow)

theorem exists_row (hm : m.Rectangular n w) (hi : i < n) : ∃ row, m.rows[i]? = some row := by
  have hlt : i < m.rows.size := by
    rw [hm.height]
    exact hi
  exact ⟨m.rows[i], Array.getElem?_eq_getElem hlt⟩

theorem row_eq (hm : m.Rectangular n w) (hi : i < n) :
    ∃ row, m.row i = .ok row ∧ m.rows[i]? = some row := by
  obtain ⟨row, hrow⟩ := hm.exists_row hi
  exact ⟨row, inRange_eq_ok.mpr hrow, hrow⟩

theorem width_eq (hm : m.Rectangular n w) (hn : 0 < n) : m.width = w := by
  obtain ⟨row, hrow⟩ := hm.exists_row hn
  rw [ByteMatrix.width, Array.getD_eq_getD_getElem?, hrow]
  exact hm.size_eq hrow

theorem entry_eq (hm : m.Rectangular n w) (hi : i < n) (hj : j < w) :
    ∃ x, m.entry i j = .ok x ∧ m.nonzero i j = decide (x ≠ 0) := by
  obtain ⟨row, hok, hrow⟩ := hm.row_eq hi
  have hlt : j < row.size := by
    rw [hm.size_eq hrow]
    exact hj
  have hget : row[j]? = some row[j] := Array.getElem?_eq_getElem hlt
  refine ⟨row[j], ?_, ?_⟩
  · rw [entry, hok]
    exact inRange_eq_ok.mpr hget
  · rw [nonzero, hrow, Option.bind_some, hget, Option.any_some]

/-- Replacing a row. -/
theorem set (hm : m.Rectangular n w) {row : Array UInt8} (hsize : row.size = w) :
    (ByteMatrix.mk (m.rows.setIfInBounds i row)).Rectangular n w := by
  constructor
  · rw [Array.size_setIfInBounds]
    exact hm.height
  · intro row' hrow'
    obtain h | h := Array.mem_or_eq_of_mem_setIfInBounds hrow'
    · exact hm.width row' h
    · rw [h]
      exact hsize

end Rectangular

/-- `n` rows of `w` entries each, all of them 0 or 1. -/
structure Shape (m : ByteMatrix) (n w : ℕ) : Prop where
  height : m.rows.size = n
  width : ∀ (i : ℕ) (row : Array UInt8), m.rows[i]? = some row → row.size = w
  binary : ∀ (i : ℕ) (row : Array UInt8), m.rows[i]? = some row →
    ∀ (j : ℕ) (x : UInt8), row[j]? = some x → x = 0 ∨ x = 1

theorem shape_iff :
    m.Shape n w ↔ m.Rectangular n w ∧ ∀ row ∈ m.rows, ∀ x ∈ row, x = 0 ∨ x = 1 := by
  constructor
  · intro hm
    refine ⟨⟨hm.height, fun row hrow => ?_⟩, fun row hrow x hx => ?_⟩
    · obtain ⟨i, hi⟩ := Array.mem_iff_getElem?.mp hrow
      exact hm.width i row hi
    · obtain ⟨i, hi⟩ := Array.mem_iff_getElem?.mp hrow
      obtain ⟨j, hj⟩ := Array.mem_iff_getElem?.mp hx
      exact hm.binary i row hi j x hj
  · rintro ⟨hm, hbinary⟩
    exact ⟨hm.height, fun i row hrow => hm.size_eq hrow, fun i row hrow j x hx =>
      hbinary row (Array.mem_of_getElem? hrow) x (Array.mem_of_getElem? hx)⟩

-- The entries are tested one by one; an instance found for `UInt8` would go through all bytes.
instance (m : ByteMatrix) (n w : ℕ) : Decidable (m.Shape n w) :=
  decidable_of_iff (m.Rectangular n w ∧
      m.rows.toList.all (fun row => row.toList.all fun x => x = 0 ∨ x = 1) = true) <| by
    simp only [shape_iff, List.all_eq_true, decide_eq_true_eq, Array.mem_toList_iff]

namespace Shape

theorem rectangular (hm : m.Shape n w) : m.Rectangular n w := (shape_iff.mp hm).1

theorem exists_row (hm : m.Shape n w) (hi : i < n) : ∃ row, m.rows[i]? = some row :=
  hm.rectangular.exists_row hi

theorem row_eq (hm : m.Shape n w) (hi : i < n) : ∃ row, m.row i = .ok row ∧ m.rows[i]? = some row :=
  hm.rectangular.row_eq hi

theorem getElem?_eq {row : Array UInt8} (hm : m.Shape n w) (hrow : m.rows[i]? = some row)
    (hj : j < w) : row[j]? = some (if m.bit i j then 1 else 0) := by
  have hlt : j < row.size := by
    rw [hm.width i row hrow]
    exact hj
  have hget : row[j]? = some row[j] := Array.getElem?_eq_getElem hlt
  have hbit : m.bit i j = (row[j] == 1) := by simp [bit, hrow, hget]
  obtain hx | hx := hm.binary i row hrow j _ hget
  · rw [hget, hbit, hx]
    rfl
  · rw [hget, hbit, hx]
    rfl

theorem entry_eq (hm : m.Shape n w) (hi : i < n) (hj : j < w) :
    m.entry i j = .ok (if m.bit i j then 1 else 0) := by
  obtain ⟨row, hok, hrow⟩ := hm.row_eq hi
  have hget := hm.getElem?_eq hrow hj
  rw [entry, hok]
  exact inRange_eq_ok.mpr hget

theorem lt_of_bit (hm : m.Shape n w) (h : m.bit i j = true) : i < n ∧ j < w := by
  unfold bit at h
  cases hrow : m.rows[i]? with
  | none => simp [hrow] at h
  | some row =>
      rw [hrow] at h
      have hjlt : j < row.size := by
        by_contra hge
        simp [Array.getElem?_eq_none (Nat.not_lt.mp hge)] at h
      rw [hm.width i row hrow] at hjlt
      rw [← hm.height]
      exact ⟨(Array.getElem?_eq_some_iff.mp hrow).1, hjlt⟩

theorem width_eq (hm : m.Shape n w) (hn : 0 < n) : m.width = w := hm.rectangular.width_eq hn

/-- An entry that is not zero is one. -/
theorem nonzero_eq (hm : m.Shape n w) : m.nonzero = m.bit := by
  funext i j
  rw [nonzero, bit]
  cases hentry : m.rows[i]?.bind (·[j]?) with
  | none => rfl
  | some x =>
      obtain ⟨row, hrow, hx⟩ := Option.bind_eq_some_iff.mp hentry
      obtain rfl | rfl := hm.binary i row hrow j x hx <;> rfl

/-- Replacing a row. -/
theorem set (hm : m.Shape n w) (hi : i < n) {row : Array UInt8} (hsize : row.size = w)
    (hbinary : ∀ (j : ℕ) (x : UInt8), row[j]? = some x → x = 0 ∨ x = 1) :
    (ByteMatrix.mk (m.rows.setIfInBounds i row)).Shape n w ∧
      ∀ r j, (ByteMatrix.mk (m.rows.setIfInBounds i row)).bit r j =
        if r = i then row[j]? == some 1 else m.bit r j := by
  have hlt : i < m.rows.size := by
    rw [hm.height]
    exact hi
  have hget : ∀ r, (m.rows.setIfInBounds i row)[r]? =
      if r = i then some row else m.rows[r]? := by
    intro r
    rw [Array.getElem?_setIfInBounds]
    by_cases hr : r = i
    · subst hr
      simp [hlt]
    · simp [hr, Ne.symm hr]
  refine ⟨⟨by simpa using hm.height, ?_, ?_⟩, ?_⟩
  · intro r row' hrow'
    rw [hget] at hrow'
    split at hrow'
    case isTrue =>
      cases hrow'
      exact hsize
    case isFalse => exact hm.width r row' hrow'
  · intro r row' hrow'
    rw [hget] at hrow'
    split at hrow'
    case isTrue =>
      cases hrow'
      exact hbinary
    case isFalse => exact hm.binary r row' hrow'
  · intro r j
    simp only [bit, hget]
    split <;> rfl

end Shape

/-! ## Row steps -/

theorem bit_false_of_width_zero (hm : m.Shape n 0) (i j : ℕ) : m.bit i j = false := by
  rw [Bool.eq_false_iff]
  intro hbit
  exact absurd (hm.lt_of_bit hbit).2 (Nat.not_lt_zero j)

theorem Shape.rowAdd (hm : m.Shape n w) {s t : ℕ} (hs : s < n) (ht : t < n) :
    ∃ m', m.rowAdd s t = .ok m' ∧ m'.Shape n w ∧ m'.bit = (RowStep.add s t).onBits m.bit := by
  have hn : 0 < n := by omega
  unfold ByteMatrix.rowAdd
  rw [hm.width_eq hn]
  by_cases hw : w = 0
  · subst hw
    refine ⟨m, rfl, hm, ?_⟩
    funext i j
    simp [onBits, bit_false_of_width_zero hm]
  · obtain ⟨source, hsource, hrs⟩ := hm.row_eq hs
    obtain ⟨target, htarget, hrt⟩ := hm.row_eq ht
    have hsizes : ¬(source.size < w ∨ target.size < w) := by
      rw [hm.width s source hrs, hm.width t target hrt]
      omega
    -- entries of the sum are sums of entries
    have hsum : ∀ j, (addRows w source target)[j]? =
        if j < w then some (if m.bit t j ^^ m.bit s j then 1 else 0) else none := by
      intro j
      by_cases hj : j < w
      · have hgs := hm.getElem?_eq hrs hj
        have hgt := hm.getElem?_eq hrt hj
        rw [addRows, Array.getElem?_mapIdx, hgt, Option.map_some, if_pos hj, if_pos hj,
          Array.getD_eq_getD_getElem?, hgs]
        cases m.bit t j <;> cases m.bit s j <;> rfl
      · rw [if_neg hj, Array.getElem?_eq_none]
        rw [addRows, Array.size_mapIdx, hm.width t target hrt]
        omega
    have hsize : (addRows w source target).size = w := by
      rw [addRows, Array.size_mapIdx, hm.width t target hrt]
    obtain ⟨hshape, hbit⟩ := hm.set ht hsize (by
        intro j x hx
        rw [hsum] at hx
        split at hx
        case isTrue =>
          cases hx
          cases m.bit t j ^^ m.bit s j <;> simp
        case isFalse => cases hx)
    refine ⟨_, ?_, hshape, ?_⟩
    · rw [if_neg hw, hsource, htarget]
      exact if_neg hsizes
    · funext i j
      rw [hbit, hsum]
      by_cases hi : i = t
      · subst hi
        by_cases hj : j < w
        · simp only [onBits, if_true, if_pos hj]
          cases m.bit i j ^^ m.bit s j <;> rfl
        · have hout : ∀ r, m.bit r j = false := by
            intro r
            rw [Bool.eq_false_iff]
            intro hb
            exact hj (hm.lt_of_bit hb).2
          simp [onBits, hj, hout]
      · simp [onBits, hi]

theorem Shape.rowSwap (hm : m.Shape n w) {a b : ℕ} (ha : a < n) (hb : b < n) :
    ∃ m', m.rowSwap a b = .ok m' ∧ m'.Shape n w ∧ m'.bit = (RowStep.swap a b).onBits m.bit := by
  obtain ⟨rowA, hokA, hrowA⟩ := hm.row_eq ha
  obtain ⟨rowB, hokB, hrowB⟩ := hm.row_eq hb
  obtain ⟨hfirst, hbit⟩ := hm.set ha (hm.width b rowB hrowB) (hm.binary b rowB hrowB)
  obtain ⟨hshape, hbit'⟩ := hfirst.set hb (hm.width a rowA hrowA) (hm.binary a rowA hrowA)
  refine ⟨_, ?_, hshape, ?_⟩
  · rw [ByteMatrix.rowSwap, hokA, hokB]
    rfl
  · have hA : ∀ j, (rowA[j]? == some 1) = m.bit a j := fun j => by simp [bit, hrowA]
    have hB : ∀ j, (rowB[j]? == some 1) = m.bit b j := fun j => by simp [bit, hrowB]
    funext i j
    rw [hbit', hbit, hA, hB, onBits_swap]
    by_cases hib : i = b
    · rw [if_pos hib, hib, Equiv.swap_apply_right]
    · by_cases hia : i = a
      · rw [if_neg hib, if_pos hia, hia, Equiv.swap_apply_left]
      · rw [if_neg hib, if_neg hia, Equiv.swap_apply_of_ne_of_ne hia hib]

theorem Shape.replay (hm : m.Shape n w) {steps : List RowStep} (h : ∀ s ∈ steps, s.Within n) :
    ∃ m', RowStep.replay steps m = .ok m' ∧ m'.Shape n w ∧ m'.bit = runBits steps m.bit := by
  induction steps generalizing m with
  | nil => exact ⟨m, rfl, hm, rfl⟩
  | cons s steps ih =>
      have happly : ∃ m₁, s.apply m = .ok m₁ ∧ m₁.Shape n w ∧ m₁.bit = s.onBits m.bit := by
        have hs := h s List.mem_cons_self
        cases s with
        | swap a b => exact hm.rowSwap hs.1 hs.2.1
        | add a b => exact hm.rowAdd hs.1 hs.2.1
      obtain ⟨m₁, hok, hm₁, hbit⟩ := happly
      obtain ⟨m', hrun, hm', hbits⟩ := ih hm₁ fun s' hs' => h s' (List.mem_cons_of_mem s hs')
      refine ⟨m', ?_, hm', ?_⟩
      · rw [replay_cons, hok]
        exact hrun
      · rw [hbits, hbit, runBits_cons]

/-! ## Unit rows -/

theorem Shape.toList_eq (hm : m.Shape n w) {row : Array UInt8} (hrow : m.rows[i]? = some row) :
    row.toList = (List.range w).map fun j => if m.bit i j then (1 : UInt8) else 0 := by
  have hsize := hm.width i row hrow
  apply List.ext_getElem?
  intro j
  by_cases hj : j < w
  · rw [Array.getElem?_toList, hm.getElem?_eq hrow hj, List.getElem?_map, List.getElem?_range hj]
    rfl
  · rw [List.getElem?_eq_none (by rw [Array.length_toList]; omega), List.getElem?_eq_none (by simp; omega)]

theorem Shape.weight_eq (hm : m.Shape n w) {row : Array UInt8} (hrow : m.rows[i]? = some row) :
    weight row = ((List.range w).filter (m.bit i)).length := by
  rw [weight, ← Array.countP_toList, hm.toList_eq hrow, List.countP_map, List.countP_eq_length_filter]
  congr 2
  funext j
  cases hb : m.bit i j <;> simp [hb]

theorem Shape.mem_unitRows (hm : m.Shape n w) :
    i ∈ m.unitRows ↔ i < n ∧ ∃ j, ∀ k, m.bit i k = (k == j) := by
  simp only [unitRows, List.mem_filter, List.mem_range, ByteMatrix.height, hm.height]
  refine and_congr_right fun hi => ?_
  obtain ⟨row, hrow⟩ := hm.exists_row hi
  have hmem : ∀ k, k ∈ (List.range w).filter (m.bit i) ↔ m.bit i k = true := by
    intro k
    rw [List.mem_filter, List.mem_range]
    exact ⟨fun h => h.2, fun h => ⟨(hm.lt_of_bit h).2, h⟩⟩
  rw [hrow, Option.map_some, hm.weight_eq hrow, beq_iff_eq, Option.some.injEq,
    List.length_eq_one_iff]
  constructor
  · intro ⟨j, hj⟩
    refine ⟨j, fun k => ?_⟩
    have hk := hmem k
    rw [hj, List.mem_singleton] at hk
    rw [Bool.eq_iff_iff, beq_iff_eq, hk]
  · intro ⟨j, hj⟩
    refine ⟨j, ?_⟩
    have hnodup : ((List.range w).filter (m.bit i)).Nodup := List.nodup_range.filter _
    rw [← List.perm_singleton, List.perm_ext_iff_of_nodup hnodup (List.nodup_singleton j)]
    intro k
    rw [hmem, hj, beq_iff_eq, List.mem_singleton]

/-- The one of a unit row is found. -/
theorem Shape.idxOf?_eq (hm : m.Shape n w) {row : Array UInt8} (hrow : m.rows[i]? = some row)
    (hj : ∀ k, m.bit i k = (k == j)) : row.idxOf? 1 = some j := by
  have hjw : j < w := (hm.lt_of_bit (i := i) (j := j) (by rw [hj, beq_self_eq_true])).2
  rw [← Array.idxOf?_toList, List.idxOf?_eq_some_iff]
  have hget : ∀ k (hk : k < row.toList.length), row.toList[k] = if k = j then (1 : UInt8) else 0 := by
    intro k hk
    have hkw : k < w := by
      rw [Array.length_toList, hm.width i row hrow] at hk
      exact hk
    have hentry := hm.getElem?_eq hrow hkw
    rw [← Array.getElem?_toList, List.getElem?_eq_getElem hk, hj] at hentry
    simpa using hentry
  have hlen : j < row.toList.length := by
    rw [Array.length_toList, hm.width i row hrow]
    exact hjw
  refine ⟨hlen, by rw [hget, if_pos rfl], fun k hk => ?_⟩
  rw [hget, if_neg (by omega)]
  decide

end ByteMatrix

end ZX
