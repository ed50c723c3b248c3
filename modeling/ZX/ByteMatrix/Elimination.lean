import ZX.ByteMatrix.Basic

/-!
# Elimination with a record of steps

Rows are visited in order and share one column cursor. A zero row is left where it stands. For any
other row the cursor moves on to the first column with a nonzero entry at or below that row; the
first such row is swapped up and added into every other row with a nonzero entry there. The result
comes with the list of steps that led to it.
-/
namespace ZX.ByteMatrix

/-- The first row from `i` on with a nonzero entry in a column. -/
def pivotRow (m : ByteMatrix) (i col : Nat) : Except Fault (Option Nat) :=
  (List.range' i (m.height - i)).findM? fun r => return (← m.entry r col) ≠ 0

/-- The first column among the next `n` that has a pivot, with the row of the pivot. -/
def findPivot (m : ByteMatrix) (i : Nat) : Nat → Nat → Except Fault (Option (Nat × Nat))
  | 0, _ => return none
  | n + 1, col => do
      match ← m.pivotRow i col with
      | some r => return some (r, col)
      | none => m.findPivot i n (col + 1)

/-- Adds row `i` into each listed row that has a nonzero entry in the column. -/
def clearColumn (i col : Nat) : List Nat → ByteMatrix → Except Fault (ByteMatrix × List RowStep)
  | [], m => return (m, [])
  | k :: ks, m => do
      if k ≠ i ∧ (← m.entry k col) ≠ 0 then
        let (result, steps) ← clearColumn i col ks (← m.rowAdd i k)
        return (result, .add i k :: steps)
      else
        clearColumn i col ks m

/-- Moves the pivot row up, if it is not there already. -/
def raisePivot (m : ByteMatrix) (i r : Nat) : Except Fault (ByteMatrix × List RowStep) :=
  if r = i then return (m, []) else return (← m.rowSwap i r, [.swap i r])

/-- Visits the listed rows with the cursor at `col`, on the first `width` columns. -/
def reduceRows (width : Nat) :
    List Nat → Nat → ByteMatrix → Except Fault (ByteMatrix × List RowStep)
  | [], _, m => return (m, [])
  | i :: is, col, m => do
      if width ≤ col then
        return (m, [])
      else if (← m.row i).all (· = 0) then
        reduceRows width is col m
      else
        match ← m.findPivot i (width - col) col with
        | none => return (m, [])
        | some (r, c) =>
            let (raised, swaps) ← m.raisePivot i r
            let (cleared, adds) ← clearColumn i c (List.range m.height) raised
            let (result, rest) ← reduceRows width is (c + 1) cleared
            return (result, swaps ++ adds ++ rest)

/-- The reduced matrix and the steps that produce it. -/
def eliminate (m : ByteMatrix) : Except Fault (ByteMatrix × List RowStep) :=
  reduceRows m.width (List.range m.height) 0 m

end ZX.ByteMatrix
