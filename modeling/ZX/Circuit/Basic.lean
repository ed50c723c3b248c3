import ZX.Gate
import ZX.RowStep

/-!
# Circuits

A circuit is a list of gates in execution order on a number of qubits, with a global phase beside
it. A circuit takes row steps by appending gates: a swap for a swap, and a controlled not with
control and target exchanged for an addition.
-/
namespace ZX

structure Circuit where
  width : Nat
  globalPhase : Phase
  gates : List Gate
deriving DecidableEq

namespace Circuit

def empty (width : Nat) : Circuit := ⟨width, Phase.zero, []⟩

instance : Inhabited Circuit := ⟨empty 0⟩

def push (c : Circuit) (g : Gate) : Circuit := { c with gates := c.gates ++ [g] }

def pushFront (c : Circuit) (g : Gate) : Circuit := { c with gates := g :: c.gates }

def countKind (c : Circuit) (k : GateKind) : Nat := c.gates.countP (·.kind = k)

/-- Both gate lists in order, on the width of the first circuit. -/
def extend (c d : Circuit) : Except Fault Circuit :=
  return { c with gates := c.gates ++ d.gates, globalPhase := ← c.globalPhase.add d.globalPhase }

/-- Both gate lists in order, for circuits of one width. -/
def append (c d : Circuit) : Except Fault Circuit :=
  if c.width = d.width then c.extend d else .error .widthMismatch

/-- The circuit over gates on one and two qubits. -/
def toBasic (c : Circuit) : Except Fault Circuit :=
  return { c with gates := (← c.gates.mapM Gate.basicGates).flatten }

instance : RowOps Circuit where
  rowSwap c r0 r1 := .ok (c.push (.plain .swap [r0, r1]))
  rowAdd c r0 r1 := .ok (c.push (.plain .cnot [r1, r0]))

/-- Declarations and gates, one to a line. The global phase appears as a comment. -/
def body (c : Circuit) : String :=
  let phase :=
    if c.globalPhase.isZero then "" else "// global phase: " ++ c.globalPhase.render ++ "*pi\n"
  phase ++ s!"qreg q[{c.width}];\n" ++ String.join (c.gates.map fun g => g.render ++ ";\n")

/-- A complete program of the circuit language. -/
def toQasm (c : Circuit) : String := "OPENQASM 2.0;\ninclude \"qelib1.inc\";\n" ++ c.body

end Circuit

end ZX
