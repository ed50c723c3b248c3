import ZX.Circuit.Basic
import ZX.Rule.Basic
import Std.Data.HashSet

/-!
# Cleaning a circuit

Two rules on circuits: a rotation by nothing is dropped, and two Hadamards on one qubit cancel when
no gate between them touches that qubit. `Circuit.cleanup` runs the one and then the other to a
fixed point.
-/
namespace ZX

def Gate.isZeroRotation (g : Gate) : Bool := g.kind.isRotation && g.phase.isZero

namespace Circuit

/-- The positions of the zero rotations. -/
def zeroRotations (c : Circuit) : List Nat :=
  c.gates.zipIdx.filterMap fun (g, i) => if g.isZeroRotation then some i else none

/-- The circuit without the gates at the given positions. -/
def dropGates (c : Circuit) (positions : Std.HashSet Nat) : Circuit :=
  { c with gates :=
      (c.gates.zipIdx.filter fun (_, i) => !positions.contains i).map Prod.fst }

/-- Hadamards at two positions, the same in their qubits, with nothing in between on the first of
these. -/
def isHadamardPair (gates : Array Gate) (i j : Nat) : Except Fault Bool := do
  match gates[i]?, gates[j]? with
  | some g0, some g1 =>
      if j ≤ i ∨ g0.kind ≠ .had ∨ g1.kind ≠ .had ∨ g0.qubits ≠ g1.qubits then
        return false
      else
        let q ← at? g0.qubits 0
        return !gates.any (·.qubits.contains q) (i + 1) j
  | _, _ => return false

/-- Scans gates from position `j` on. `waiting` lists the qubits whose last gate was a Hadamard
that still looks for its partner, with the position of that Hadamard. -/
def hadamardPairs (width : Nat) :
    Nat → List (Nat × Nat) → List Gate → List (Nat × Nat)
  | _, _, [] => []
  | j, waiting, g :: gs =>
      let others (qs : List Nat) := waiting.filter fun (q, _) => !qs.contains q
      match g.kind, g.qubits with
      | .had, [q] =>
          if q < width then
            match waiting.lookup q with
            | some i => (i, j) :: hadamardPairs width (j + 1) (others [q]) gs
            | none => hadamardPairs width (j + 1) ((q, j) :: waiting) gs
          else
            hadamardPairs width (j + 1) waiting gs
      | _, qs => hadamardPairs width (j + 1) (others qs) gs

/-- The pairs of a circuit. The table of the waiting Hadamards has 16 bytes for every qubit. -/
def waitingPairs (c : Circuit) : Except Fault (List (Nat × Nat)) := do
  checkTable c.width 16
  return hadamardPairs c.width 0 [] c.gates

/-- The positions in pairs that are valid and disjoint from the pairs chosen before them. -/
def choosePairs (gates : Array Gate) :
    List (Nat × Nat) → Std.HashSet Nat → Except Fault (Std.HashSet Nat)
  | [], chosen => return chosen
  | (i, j) :: rest, chosen => do
      if (← isHadamardPair gates i j) && !chosen.contains i && !chosen.contains j then
        choosePairs gates rest ((chosen.insert i).insert j)
      else
        choosePairs gates rest chosen

end Circuit

def Rule.zeroRotation : Rule Circuit Nat where
  name := "zxtract::rewrite::RemoveZeroPhase"
  measure c := c.gates.length
  places c := return c.zeroRotations
  act c found :=
    let gates := c.gates.toArray
    return c.dropGates (.ofList (found.filter fun i => gates[i]?.any Gate.isZeroRotation))

def Rule.hadamardPair : Rule Circuit (Nat × Nat) where
  name := "zxtract::rewrite::CancelHadamardPair"
  measure c := c.gates.length
  places c := c.waitingPairs
  act c found := return c.dropGates (← Circuit.choosePairs c.gates.toArray found ∅)

/-- Drops zero rotations, then cancels Hadamards. Tells whether the circuit changed. -/
def Circuit.cleanup (c : Circuit) : Run Fault (Bool × Circuit) := do
  let (dropped, c) ← Rule.zeroRotation.fixedPoint c
  let (cancelled, c) ← Rule.hadamardPair.fixedPoint c
  return (cancelled || dropped, c)

end ZX
