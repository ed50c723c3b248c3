import ZX.Phase

/-!
# Gates

A gate has a kind, the list of qubits it acts on and a phase. Only the two rotations look at their
phase; the other kinds carry one without using it.
-/
namespace ZX

inductive GateKind where
  | xPhase
  | not
  | zPhase
  | z
  | s
  | t
  | sdg
  | tdg
  | cnot
  | cz
  | swap
  | had
  | toffoli
  | ccz
  | unknown
deriving DecidableEq, Repr

namespace GateKind

def ofName : String → GateKind
  | "rz" => .zPhase
  | "rx" => .xPhase
  | "x" => .not
  | "z" => .z
  | "s" => .s
  | "t" => .t
  | "sdg" => .sdg
  | "tdg" => .tdg
  | "h" => .had
  | "cx" => .cnot
  | "CX" => .cnot
  | "cz" => .cz
  | "ccx" => .toffoli
  | "ccz" => .ccz
  | "swap" => .swap
  | _ => .unknown

def name : GateKind → String
  | .zPhase => "rz"
  | .xPhase => "rx"
  | .not => "x"
  | .z => "z"
  | .s => "s"
  | .t => "t"
  | .sdg => "sdg"
  | .tdg => "tdg"
  | .had => "h"
  | .cnot => "cx"
  | .cz => "cz"
  | .toffoli => "ccx"
  | .ccz => "ccz"
  | .swap => "swap"
  | .unknown => "UNKNOWN"

/-- The number of qubits a gate of this kind acts on, if it is fixed. -/
def arity : GateKind → Option Nat
  | .cnot | .cz | .swap => some 2
  | .toffoli | .ccz => some 3
  | .unknown => none
  | _ => some 1

def isRotation : GateKind → Bool
  | .zPhase | .xPhase => true
  | _ => false

end GateKind

structure Gate where
  kind : GateKind
  qubits : List Nat
  phase : Phase
deriving DecidableEq

namespace Gate

def plain (kind : GateKind) (qubits : List Nat) : Gate := ⟨kind, qubits, Phase.zero⟩

/-- A statement of the circuit language: name, angle, qubits. -/
def render (g : Gate) : String :=
  let angle :=
    if g.kind.isRotation then s!"({g.phase.num}*pi/{g.phase.den})" else ""
  g.kind.name ++ angle ++ " " ++ ", ".intercalate (g.qubits.map fun q => s!"q[{q}]")

/-- The phase of the one spider that realises the gate, for gates that are one spider. -/
def spiderPhase (g : Gate) : Option Phase :=
  match g.kind with
  | .zPhase | .xPhase => some g.phase
  | .z | .not => some Phase.one
  | .s => some Phase.quarter
  | .sdg => some Phase.negQuarter
  | .t => some Phase.eighth
  | .tdg => some Phase.negEighth
  | _ => none

/-- A phase on the product of three qubits by gates on one and two qubits. -/
def cczNetwork (a b c : Nat) : List Gate :=
  [ plain .cnot [b, c], plain .tdg [c], plain .cnot [a, c], plain .t [c],
    plain .cnot [b, c], plain .tdg [c], plain .cnot [a, c], plain .t [b],
    plain .t [c], plain .cnot [a, b], plain .t [a], plain .tdg [b], plain .cnot [a, b] ]

/-- The number of gates of `basicGates`. -/
def basicCount (g : Gate) : Nat :=
  match g.kind with
  | .ccz => 13
  | .toffoli => 15
  | _ => 1

/-- The gate by gates on one and two qubits; a gate that is basic already stands for itself. -/
def basicGates (g : Gate) : Except Fault (List Gate) := do
  match g.kind, g.qubits with
  | .ccz, a :: b :: c :: _ => return cczNetwork a b c
  | .toffoli, a :: b :: c :: _ =>
      return plain .had [c] :: cczNetwork a b c ++ [plain .had [c]]
  | .ccz, _ | .toffoli, _ => throw .outOfRange
  | _, _ => return [g]

end Gate

end ZX
