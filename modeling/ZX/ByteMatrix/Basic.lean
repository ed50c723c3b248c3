import ZX.RowStep

/-!
# Byte matrices

Rows of bytes, added by exclusive or. The width is that of the first row; rows need not agree, and
a row that is too short for an operation makes it fail. On entries 0 and 1 this is linear algebra
over two elements.
-/
namespace ZX

structure ByteMatrix where
  rows : Array (Array UInt8)
deriving DecidableEq, Repr

namespace ByteMatrix

/-- A matrix of a given size has to be storable: one row, the table of the rows with 24 bytes for
each, even if there is no row at all, and all rows together. With the copy that is reduced, these
are in memory twice. -/
def checkSize (height width : Nat) : Except Fault Unit := do
  checkTable width 1
  checkTable height 24
  checkTable (height * width) 1

/-- A matrix of a given size. -/
def build (height width : Nat) (f : Nat → Nat → Bool) : Except Fault ByteMatrix := do
  checkSize height width
  return ⟨(Array.range height).map fun i => (Array.range width).map fun j => if f i j then 1 else 0⟩

def zeros (height width : Nat) : Except Fault ByteMatrix := build height width fun _ _ => false

def identity (n : Nat) : Except Fault ByteMatrix := build n n fun i j => i == j

def height (m : ByteMatrix) : Nat := m.rows.size

def width (m : ByteMatrix) : Nat := (m.rows.getD 0 #[]).size

def row (m : ByteMatrix) (i : Nat) : Except Fault (Array UInt8) := inRange m.rows[i]?

def entry (m : ByteMatrix) (i j : Nat) : Except Fault UInt8 := do inRange (← m.row i)[j]?

def setEntry (m : ByteMatrix) (i j : Nat) (x : UInt8) : Except Fault ByteMatrix := do
  let row ← m.row i
  let _ ← inRange row[j]?
  return ⟨m.rows.setIfInBounds i (row.setIfInBounds j x)⟩

/-- The sum of two rows on the first `n` columns. The target keeps what lies beyond. -/
def addRows (n : Nat) (source target : Array UInt8) : Array UInt8 :=
  target.mapIdx fun j y => if j < n then y ^^^ source.getD j 0 else y

def rowAdd (m : ByteMatrix) (r0 r1 : Nat) : Except Fault ByteMatrix := do
  if m.width = 0 then
    return m
  else
    let source ← m.row r0
    let target ← m.row r1
    if source.size < m.width ∨ target.size < m.width then
      throw .outOfRange
    else
      return ⟨m.rows.setIfInBounds r1 (addRows m.width source target)⟩

def rowSwap (m : ByteMatrix) (r0 r1 : Nat) : Except Fault ByteMatrix := do
  let a ← m.row r0
  let b ← m.row r1
  return ⟨(m.rows.setIfInBounds r0 b).setIfInBounds r1 a⟩

instance : RowOps ByteMatrix where
  rowSwap := rowSwap
  rowAdd := rowAdd

/-- The number of nonzero entries of a row. -/
def weight (row : Array UInt8) : Nat := row.countP (· ≠ 0)

def rowWeight (m : ByteMatrix) (i : Nat) : Except Fault Nat := return weight (← m.row i)

/-- The rows with exactly one nonzero entry. -/
def unitRows (m : ByteMatrix) : List Nat :=
  (List.range m.height).filter fun i => (m.rows[i]?.map weight) == some 1

def renderRow (row : Array UInt8) : String :=
  "[ " ++ String.join (row.toList.map fun x => toString x.toNat ++ " ") ++ "]\n"

def render (m : ByteMatrix) : String := String.join (m.rows.toList.map renderRow)

end ByteMatrix

end ZX
