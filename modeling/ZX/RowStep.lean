import ZX.Bounded

/-!
# Row operations

A row step exchanges two rows or adds one row to another. Anything with rows can take such steps:
a matrix changes its entries, a circuit records gates. Over two elements every step is its own
inverse, so a list of steps is undone by taking it back to front.
-/
namespace ZX

inductive RowStep where
  | swap (r0 r1 : Nat)
  /-- Adds row `src` into row `tgt`. -/
  | add (src tgt : Nat)
deriving DecidableEq, Repr

class RowOps (α : Type) where
  rowSwap : α → Nat → Nat → Except Fault α
  /-- Adds the first row into the second. -/
  rowAdd : α → Nat → Nat → Except Fault α

namespace RowStep

variable {α : Type} [RowOps α]

def apply (x : α) : RowStep → Except Fault α
  | .swap r0 r1 => RowOps.rowSwap x r0 r1
  | .add src tgt => RowOps.rowAdd x src tgt

def replay (steps : List RowStep) (x : α) : Except Fault α := steps.foldlM apply x

def undo (steps : List RowStep) (x : α) : Except Fault α := replay steps.reverse x

@[simp] theorem replay_nil (x : α) : replay [] x = .ok x := rfl

@[simp] theorem replay_cons (s : RowStep) (steps : List RowStep) (x : α) :
    replay (s :: steps) x = (apply x s).bind (replay steps) := rfl

end RowStep

end ZX
