import ZX.Journal

/-!
# Rules and their fixed points

A rule finds all places where it applies and acts on a batch of them. Acting at one place can spoil
another, so a rule looks at each place again before it acts and passes over those that are spoiled.
The measure of a rule is a number that every batch lowers; it bounds the number of batches that
lead to a fixed point.
-/
namespace ZX

structure Rule (τ μ : Type) where
  name : String
  measure : τ → Nat
  places : τ → Except Fault (List μ)
  /-- Acts at every place that is still valid. -/
  act : τ → List μ → Except Fault τ

namespace Rule

variable {τ μ : Type}

/-- One batch: the target after acting at all places, or `none` if there is no place. -/
def once (r : Rule τ μ) (x : τ) : Run Fault (Option τ) := do
  match ← r.places x with
  | [] => return none
  | found =>
      Run.emit .trace (r.name ++ s!": {found.length} matches")
      return some (← r.act x found)

/-- At most so many batches, and whether there was one. -/
def batches (r : Rule τ μ) : Nat → τ → Run Fault (Bool × τ)
  | 0, _ => throw .exhausted
  | n + 1, x => do
      match ← r.once x with
      | none => return (false, x)
      | some y => return (true, (← r.batches n y).2)

/-- Batches until no place is left, and whether there was one. -/
def fixedPoint (r : Rule τ μ) (x : τ) : Run Fault (Bool × τ) := r.batches (r.measure x + 1) x

end Rule

end ZX
