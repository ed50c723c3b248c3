import ZX.Circuit.Basic
import ZX.Random.Stream

/-!
# Random circuits

Each gate is drawn on its own: a fraction decides the kind along the sum of the weights, a qubit is
drawn, then a second qubit or an angle where the kind needs one. What the weights leave over yields
no gate, so a circuit can come out shorter than its depth.
-/
namespace ZX.Random

structure Sampler where
  stream : Stream
  qubits : Nat
  depth : Nat
  cnot : Float32
  cz : Float32
  hadamard : Float32
  s : Float32
  t : Float32
  rotation : Float32
  /-- The denominator of the angles of rotations. -/
  denominator : Int

namespace Sampler

def new (stream : Stream) : Sampler := ⟨stream, 0, 0, 0, 0, 0, 0, 0, 0, 8⟩

/-- Denominators below one count as one. -/
def setDenominator (r : Sampler) (d : Int) : Sampler := { r with denominator := max d 1 }

/-- Spreads the weight left by the other kinds evenly over controlled not, Hadamard and phase. -/
def withCliffords (r : Sampler) : Sampler :=
  let w := (1 - r.t - r.cz - r.rotation) / 3
  { r with cnot := w, hadamard := w, s := w }

def cliffordT (r : Sampler) (t : Float32) : Sampler := { r with t := t }.withCliffords

def uniform (r : Sampler) : Sampler :=
  let w : Float32 := 1 / 6
  { r with cnot := w, cz := w, hadamard := w, s := w, t := w, rotation := w }

/-- The first kind whose running sum of weights exceeds the fraction. -/
def pick (fraction : Float32) : Float32 → List (GateKind × Float32) → Option GateKind
  | _, [] => none
  | sum, (kind, w) :: rest =>
      if fraction ≥ sum + w then pick fraction (sum + w) rest else some kind

def weights (r : Sampler) : List (GateKind × Float32) :=
  [ (.cnot, r.cnot), (.cz, r.cz), (.had, r.hadamard), (.s, r.s), (.t, r.t), (.zPhase, r.rotation) ]

/-- One gate, or none, and the stream behind it. -/
def nextGate (r : Sampler) (stream : Stream) : Except Fault (Option Gate × Stream) := do
  let (fraction, stream) := stream.nextFraction
  let (q0, stream) := stream.nextIndex r.qubits
  match pick fraction 0 r.weights with
  | none => return (none, stream)
  | some kind =>
      match kind with
      | .cnot | .cz =>
          if 1 < r.qubits then
            let (q, stream) := stream.nextIndex (r.qubits - 1)
            let q1 := if q0 ≤ q then q + 1 else q
            return (some (.plain kind [q0, q1]), stream)
          else
            return (none, stream)
      | .zPhase =>
          let top ← int64 (2 * r.denominator)
          let (n, stream) := stream.nextWideBelow (top - 1).toNat
          return (some ⟨.zPhase, [q0], ← Phase.ofFraction (n + 1) r.denominator⟩, stream)
      | _ => return (some (.plain kind [q0]), stream)

/-- So many draws. The gates drawn before are given with the last one first. -/
def nextGates (r : Sampler) : Nat → List Gate → Stream → Except Fault (List Gate × Stream)
  | 0, drawn, stream => return (drawn.reverse, stream)
  | n + 1, drawn, stream => do
      let (gate, stream) ← r.nextGate stream
      r.nextGates n (gate.toList ++ drawn) stream

/-- A circuit, and the sampler that draws the next one. -/
def build (r : Sampler) : Except Fault (Circuit × Sampler) := do
  if r.qubits = 0 then
    return (Circuit.empty 0, r)
  else
    let (gates, stream) ← r.nextGates r.depth [] r.stream
    return ({ Circuit.empty r.qubits with gates := gates }, { r with stream := stream })

end Sampler

end ZX.Random
