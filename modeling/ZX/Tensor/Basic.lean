import ZX.Bounded
import ZX.Tensor.Amplitude

/-!
# Tensors over qubits

A tensor of rank `n` has one axis of dimension two per index and `2^n` entries. The position of an
entry is the number whose binary digits are its indices, the first axis first.

A tensor also keeps the order in which its axes are stored. A new tensor has its axes in order, and
what changes entries in place leaves their order alone. Exchanging two axes exchanges their places,
and contraction takes only tensors whose axes are in order.
-/
namespace ZX

-- Powers of numbers are those of the core library.
attribute [local instance(high)] instPowNat

structure Tensor (K : Type) where
  rank : Nat
  entries : Array K
  /-- The place of each axis in storage. -/
  order : List Nat := List.range rank

namespace Tensor

variable {K : Type}

def ofFn (rank : Nat) (f : Nat → K) : Tensor K :=
  { rank, entries := Array.ofFn fun (i : Fin (2 ^ rank)) => f i }

/-- New entries in the places of the old ones. -/
def update (t : Tensor K) (f : Nat → K) : Tensor K := { ofFn t.rank f with order := t.order }

/-- Every axis is stored in its own place. -/
def InOrder (t : Tensor K) : Prop := t.order = List.range t.rank

instance (t : Tensor K) : Decidable t.InOrder := inferInstanceAs (Decidable (_ = _))

@[simp] theorem inOrder_ofFn (rank : Nat) (f : Nat → K) : (ofFn rank f).InOrder := rfl

@[simp] theorem inOrder_update (t : Tensor K) (f : Nat → K) : (t.update f).InOrder ↔ t.InOrder :=
  Iff.rfl

variable [Amplitude K]

def entry (t : Tensor K) (x : Nat) : K := t.entries[x]?.getD 0

/-- The index on an axis of the entry at a position. -/
def axisBit (rank x axis : Nat) : Bool := x.testBit (rank - 1 - axis)

/-- How far apart two positions lie that differ on an axis only. -/
def stride (rank axis : Nat) : Nat := 1 <<< (rank - 1 - axis)

/-- The position with one more index `b` at the axis of a stride. -/
def insertBit (stride x : Nat) (b : Bool) : Nat :=
  x / stride * (2 * stride) + (if b then stride else 0) + x % stride

def scale (t : Tensor K) (a : K) : Tensor K := t.update fun x => t.entry x * a

/-- Multiplies each entry by a factor that depends on the position. -/
def weigh (t : Tensor K) (factor : Nat → K) : Tensor K := t.update fun x => t.entry x * factor x

/-- The tensor with one number and no axis. -/
def unit : Tensor K := ofFn 0 fun _ => 1

/-- The identity on `q` qubits: the first `q` indices equal the last `q`. -/
def ident (q : Nat) : Except Fault (Tensor K) := do
  Amplitude.checkRank K (2 * q)
  let side := 2 ^ q
  return ofFn (2 * q) fun x => if x / side = x % side then 1 else 0

/-- One where all indices agree. -/
def delta (q : Nat) : Except Fault (Tensor K) := do
  Amplitude.checkRank K q
  let last := 2 ^ q - 1
  return ofFn q fun x => if x = 0 ∨ x = last then 1 else 0

def hadamard : Tensor K :=
  ofFn 2 fun x => if x = 3 then 0 - Amplitude.invSqrt2 else Amplitude.invSqrt2

/-- Axes that exist and are pairwise distinct. A tensor on as many axes has to be storable. -/
def checkAxes (t : Tensor K) (axes : List Nat) (repeated : Fault) : Except Fault Unit := do
  if axes.any (t.rank ≤ ·) then
    throw .outOfRange
  else
    Amplitude.checkRank K axes.length
    if axes.eraseDups.length ≠ axes.length then throw repeated else return ()

/-- Keeps the entries whose indices on the axes agree. -/
def deltaAt (t : Tensor K) (axes : List Nat) : Except Fault (Tensor K) := do
  t.checkAxes axes .deltaAxes
  return t.weigh fun x =>
    if axes.all (axisBit t.rank x ·) || axes.all (!axisBit t.rank x ·) then 1 else 0

/-- Multiplies the entries whose indices on the axes are all one. -/
def phaseAt (t : Tensor K) (p : Phase) (axes : List Nat) : Except Fault (Tensor K) := do
  t.checkAxes axes .phaseAxes
  let f : K := Amplitude.ofPhase p
  return t.weigh fun x => if axes.all (axisBit t.rank x ·) then f else 1

/-- A controlled phase on `q` qubits. -/
def cphase (p : Phase) (q : Nat) : Except Fault (Tensor K) := do
  (← ident q).phaseAt p (List.range q)

/-- The two halves with index zero and one on an axis. -/
def slice (t : Tensor K) (axis : Nat) : Except Fault (Tensor K × Tensor K) :=
  if axis < t.rank then
    let step := stride t.rank axis
    .ok (ofFn (t.rank - 1) fun x => t.entry (insertBit step x false),
      ofFn (t.rank - 1) fun x => t.entry (insertBit step x true))
  else
    .error .unsupported

/-- Applies a Hadamard to an axis. -/
def hadamardAt (t : Tensor K) (axis : Nat) : Except Fault (Tensor K) :=
  if axis < t.rank then
    let step := stride t.rank axis
    .ok (t.update fun x =>
      if axisBit t.rank x axis then
        Amplitude.invSqrt2 * (t.entry (x - step) - t.entry x)
      else
        Amplitude.invSqrt2 * (t.entry x + t.entry (x + step)))
  else
    .error .unsupported

/-- Sums an axis away. -/
def sumAxis (t : Tensor K) (axis : Nat) : Tensor K :=
  let step := stride t.rank axis
  ofFn (t.rank - 1) fun x => t.entry (insertBit step x false) + t.entry (insertBit step x true)

/-- The position with the indices of two axes exchanged. -/
def swapBits (rank a b x : Nat) : Nat :=
  if axisBit rank x a = axisBit rank x b then x
  else x ^^^ stride rank a ^^^ stride rank b

/-- The list with the elements at two positions exchanged. -/
def swapPlaces (places : List Nat) (a b : Nat) : List Nat :=
  match places[a]?, places[b]? with
  | some x, some y => (places.set a y).set b x
  | _, _ => places

/-- Exchanges two axes and their places; nothing is moved in storage. -/
def swapAxes (t : Tensor K) (a b : Nat) : Except Fault (Tensor K) :=
  if a < t.rank ∧ b < t.rank then
    .ok { t.update fun x => t.entry (swapBits t.rank a b x) with order := swapPlaces t.order a b }
  else
    .error .outOfRange

/-- A new first axis, whose second half is multiplied by the factor, if there is one. -/
def addAxis (t : Tensor K) (factor : Option K) : Tensor K :=
  let half := 2 ^ t.rank
  ofFn (t.rank + 1) fun x =>
    if x < half then t.entry x
    else
      match factor with
      | some f => t.entry (x - half) * f
      | none => t.entry (x - half)

/-- Contracts the last `n` axes with the first `n` axes of another tensor. Both have to have their
axes in order. -/
def plug (t : Tensor K) (n : Nat) (u : Tensor K) : Except Fault (Tensor K) := do
  let total ← natSub (t.rank + u.rank) n
  if t.rank < n then
    if total = 0 then throw .tensorShape else throw .overflow
  else if u.rank < n ∨ ¬t.InOrder ∨ ¬u.InOrder then
    throw .tensorShape
  else
    let outer := 2 ^ (u.rank - n)
    let size := 2 ^ u.rank
    let product : Tensor K := ofFn total fun x => t.entry (x / outer) * u.entry (x % size)
    return (List.range n).foldl (fun p _ => p.sumAxis (t.rank - n)) product

end Tensor

end ZX
