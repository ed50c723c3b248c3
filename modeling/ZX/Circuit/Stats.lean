import ZX.Circuit.Basic

/-!
# Circuit statistics

Gates counted by the number of their qubits and by whether they are Clifford gates.
-/
namespace ZX.Circuit

/-- Clifford gates, with rotations judged by their angle. -/
def isCliffordGate (g : Gate) : Bool :=
  match g.kind with
  | .had | .not | .z | .s | .sdg | .cnot | .cz | .swap => true
  | .zPhase | .xPhase => g.phase.isClifford
  | _ => false

structure Stats where
  qubits : Nat
  total : Nat
  onQubit : Nat
  onPair : Nat
  onOther : Nat
  clifford : Nat
  nonClifford : Nat
  hadamard : Nat
deriving DecidableEq, Repr

def stats (c : Circuit) : Stats where
  qubits := c.width
  total := c.gates.length
  onQubit := c.gates.countP (·.qubits.length = 1)
  onPair := c.gates.countP (·.qubits.length = 2)
  onOther := c.gates.countP fun g => g.qubits.length ≠ 1 ∧ g.qubits.length ≠ 2
  clifford := c.gates.countP isCliffordGate
  nonClifford := c.gates.countP fun g => !isCliffordGate g
  hadamard := c.countKind .had

def Stats.toList (s : Stats) : List Nat :=
  [s.qubits, s.total, s.onQubit, s.onPair, s.onOther, s.clifford, s.nonClifford, s.hadamard]

def Stats.render (s : Stats) : String :=
  s!"Circuit with {s.qubits} qubits, {s.total} gates\n  1-qubit: {s.onQubit}\n"
    ++ s!"  2-qubit: {s.onPair}\n  n-qubit: {s.onOther}\n  clifford: {s.clifford}\n"
    ++ s!"  non-clifford: {s.nonClifford}\n  hadamard: {s.hadamard}"

end ZX.Circuit
