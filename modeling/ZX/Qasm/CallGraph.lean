import ZX.Qasm.Program
import Std.Data.HashMap

/-!
# Gates that call each other

The names of gates are numbered in the order of their first definitions. A name calls whatever one
of its definitions calls. A gate is recursive when it leads back to itself, and two recursive gates
belong to one group when each leads to the other.
-/
namespace ZX.Qasm

/-- The gates that a statement calls. -/
def Statement.calls : Statement → List String
  | .call gate _ _ => [gate]
  | .condition _ _ body => body.calls
  | _ => []

/-- For every gate, by number, the gates that it calls. -/
structure CallGraph where
  calls : Array (List Nat)

namespace CallGraph

/-- The number of each name. -/
def numbering (gates : List GateDefinition) : Std.HashMap String Nat :=
  gates.foldl (fun numbers d => numbers.insertIfNew d.name numbers.size) ∅

def ofGates (gates : List GateDefinition) : CallGraph :=
  let numbers := numbering gates
  let add (calls : Array (List Nat)) (d : GateDefinition) : Array (List Nat) :=
    let callees := ((d.body.getD []).flatMap Statement.calls).filterMap (numbers[·]?)
    match numbers[d.name]? with
    | some v => calls.modify v (callees ++ ·)
    | none => calls
  ⟨gates.foldl add (Array.replicate numbers.size [])⟩

/-- Marks what is not marked yet in a list and puts it on the worklist. -/
def enter (marked : Array Bool) (work : List Nat) : List Nat → Array Bool × List Nat
  | [] => (marked, work)
  | v :: vs =>
      if marked.getD v true then enter marked work vs
      else enter (marked.setIfInBounds v true) (v :: work) vs

/-- Follows the calls of at most so many gates of the worklist. -/
def follow (g : CallGraph) : Nat → Array Bool → List Nat → Array Bool
  | 0, marked, _ => marked
  | _ + 1, marked, [] => marked
  | n + 1, marked, v :: work =>
      let (marked, work) := enter marked work (g.calls.getD v [])
      g.follow n marked work

/-- Marks the gates that a gate leads to. Every gate enters the worklist at most once beyond the
start, when it is marked. -/
def reach (g : CallGraph) (v : Nat) : Array Bool :=
  g.follow (g.calls.size + 1) (Array.replicate g.calls.size false) [v]

/-- The number of groups of recursive gates. The first member stands for its group. -/
def groups (g : CallGraph) : Nat :=
  let reached := (Array.range g.calls.size).map g.reach
  let leads (v w : Nat) : Bool := (reached.getD v #[]).getD w false
  let recursive := (List.range g.calls.size).filter fun v => leads v v
  recursive.countP fun v => !recursive.any fun w => w < v && leads v w && leads w v

end CallGraph

end ZX.Qasm
