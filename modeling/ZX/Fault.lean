import ZX.Kind

/-!
# Faults

A fault is what ends a computation that has no answer: an integer that leaves its machine range,
a position outside a sequence, or a broken promise about a diagram, a circuit or a tensor. A fault
has no result and leaves nothing to go on with.
-/
namespace ZX

inductive Fault where
  /-- An integer left its range. -/
  | overflow
  /-- A count fell below zero. -/
  | underflow
  /-- A position lies outside a sequence. -/
  | outOfRange
  | zeroDenominator
  /-- The slot of a vertex is empty. -/
  | emptySlot
  /-- No vertex has this number. -/
  | noVertex (v : Nat)
  | noEdge
  | noSource
  | noTarget
  /-- A boundary vertex cannot absorb an edge to itself. -/
  | selfLoop
  /-- Two edges between these kinds cannot be merged. -/
  | parallelEdges (source target : VertexKind)
  | widthMismatch
  | deltaAxes
  | phaseAxes
  | tensorShape
  | tensorBroadcast
  /-- A boundary vertex is neither an input nor an output. -/
  | looseBoundary
  | lostAxis
  /-- An operation that is not offered at all, such as a Hadamard on a missing axis. -/
  | unsupported
  /-- A table has more bytes than can be addressed. -/
  | tooLarge
  /-- A loop used up the number of steps it was granted. -/
  | exhausted
deriving DecidableEq, Repr

/-- The text of a fault; range faults, and those that come without a word, have none. -/
def Fault.message : Fault → Option String
  | .overflow | .underflow | .outOfRange | .unsupported | .tooLarge | .exhausted => none
  | .zeroDenominator => "denominator == 0"
  | .emptySlot => "Vertex not found"
  | .noVertex v => s!"Vertex not found: {v}"
  | .noEdge => "Edge not found"
  | .noSource => "Source vertex not found"
  | .noTarget => "Target vertex not found"
  | .selfLoop => "Self-loops only supported on Z and X nodes"
  | .parallelEdges s t =>
      "Parallel edges only supported between Z and X vertices ("
        ++ s.letter ++ " --> " ++ t.letter ++ ")"
  | .widthMismatch => "Cannot append circuits with different numbers of qubits"
  | .deltaAxes => "Bad indices for delta_at"
  | .phaseAxes => "Bad indices for cphase_at"
  | .tensorShape => "Invalid tensor reshape"
  | .tensorBroadcast => "Invalid tensor broadcast"
  | .looseBoundary => "All boundary vertices must be an input or an output"
  | .lostAxis => "w should be in indexv"

end ZX
