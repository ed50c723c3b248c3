import ZX.Circuit.Basic
import ZX.Tensor.Basic

/-!
# The tensor of a circuit

Gates are applied to the input axes of the identity, the last gate first. Every gate equals its
transpose, so the result has the entry from input `x` to output `y` at the indices of `x` followed
by those of `y`.
-/
namespace ZX

namespace Tensor

variable {K : Type} [Amplitude K]

/-- Conjugates a controlled phase by Hadamards on the qubit at a place of the list. -/
def conjugatedPhase (t : Tensor K) (p : Phase) (qubits : List Nat) (place : Nat) :
    Except Fault (Tensor K) := do
  let q ← at? qubits place
  (← (← t.hadamardAt q).phaseAt p qubits).hadamardAt q

def applyGate (t : Tensor K) (g : Gate) : Except Fault (Tensor K) := do
  match g.kind with
  | .zPhase | .z | .s | .t | .sdg | .tdg | .cz | .ccz =>
      t.phaseAt (g.spiderPhase.getD Phase.one) g.qubits
  | .had => t.hadamardAt (← at? g.qubits 0)
  | .not | .xPhase => t.conjugatedPhase (g.spiderPhase.getD Phase.one) g.qubits 0
  | .cnot => t.conjugatedPhase Phase.one g.qubits 1
  | .toffoli => t.conjugatedPhase Phase.one g.qubits 2
  | .swap => t.swapAxes (← at? g.qubits 0) (← at? g.qubits 1)
  | .unknown => return t

end Tensor

def Circuit.toTensor (K : Type) [Amplitude K] (c : Circuit) : Except Fault (Tensor K) := do
  let t ← c.gates.reverse.foldlM Tensor.applyGate (← Tensor.ident c.width)
  if c.globalPhase.isZero then return t else return t.scale (Amplitude.ofPhase c.globalPhase)

end ZX
