import ZX.Tensor.Circuit
import ZX.Tensor.Diagram

/-!
# Comparing tensors

Tensors in doubles are compared entry by entry with a tolerance, or up to a factor. For the latter
both are scaled by the other's entry at the place where the first is largest.
-/
namespace ZX

abbrev FloatTensor := Tensor FloatComplex

namespace FloatTensor

def tolerance : Float := 1e-8

def near (x y epsilon : Float) : Bool := (if x > y then x - y else y - x) ≤ epsilon

def nearEntries (z w : FloatComplex) (epsilon : Float) : Bool :=
  near z.re w.re epsilon && near z.im w.im epsilon

def nearTensors (t u : FloatTensor) (epsilon : Float) : Bool :=
  (t.entries.zip u.entries).all fun (z, w) => nearEntries z w epsilon

/-- Equality up to the tolerance. -/
def same (t u : FloatTensor) : Bool := t.rank = u.rank && nearTensors t u tolerance

/-- The last position of the largest entry. An entry that is no number counts as the smallest. -/
def largest (t : FloatTensor) : Nat :=
  ((List.range t.entries.size).foldl (fun (best, size) x =>
    let s := (t.entry x).norm
    if size.isNaN || size ≤ s then (x, s) else (best, size)) (0, (t.entry 0).norm)).1

/-- Equality up to a factor. -/
def proportional (t u : FloatTensor) : Bool :=
  if t.rank ≠ u.rank then false
  else
    let place := largest t
    let a := t.entry place
    let b := u.entry place
    if a.norm > tolerance then
      if b.norm ≤ tolerance then false
      else nearTensors (t.scale b) (u.scale a) (tolerance * a.norm * b.norm)
    else
      u.entries.all fun z => z.norm ≤ tolerance

end FloatTensor

end ZX
