import ZX.Bounded
import ZX.ByteMatrix.Basic
import ZX.ByteMatrix.Elimination
import ZX.Circuit.Basic
import ZX.Circuit.Diagram
import ZX.Circuit.Stats
import ZX.CommandLine.Arguments
import ZX.CommandLine.Execution
import ZX.Decimal.Shortest
import ZX.Diagram.Basic
import ZX.Diagram.Biadjacency
import ZX.Diagram.Connect
import ZX.Diagram.Tables
import ZX.Diagram.Dot
import ZX.Extraction.Basic
import ZX.Extraction.Failure
import ZX.Extraction.Preparation
import ZX.Extraction.Round
import ZX.Fault
import ZX.Gate
import ZX.Journal
import ZX.Kind
import ZX.Main
import ZX.Phase
import ZX.Qasm.CallGraph
import ZX.Qasm.Check
import ZX.Qasm.Error
import ZX.Qasm.Expansion
import ZX.Qasm.Program
import ZX.Qasm.Reader
import ZX.Qasm.Token
import ZX.Qasm.Value
import ZX.Random.Circuit
import ZX.Random.Stream
import ZX.Ratio
import ZX.Ratio.Approximation
import ZX.RowStep
import ZX.Rule.Basic
import ZX.Rule.Cleanup
import ZX.Rule.Fusion
import ZX.Rule.Identity
import ZX.Rule.LocalComplement
import ZX.Rule.Pivot
import ZX.Rule.Unfusion
import ZX.Scalar
import ZX.Simplify
import ZX.Tensor.Amplitude
import ZX.Tensor.Basic
import ZX.Tensor.Circuit
import ZX.Tensor.Compare
import ZX.Tensor.Diagram
import ZX.Proofs.Outcome
import ZX.Proofs.Agreement
import ZX.Proofs.Arena.Basic
import ZX.Proofs.Arena.Vertices
import ZX.Proofs.Arena.Edges
import ZX.Proofs.Arena.Frame
import ZX.Proofs.Angle
import ZX.Proofs.Assignment
import ZX.Proofs.Meaning
import ZX.Proofs.Absorption
import ZX.Proofs.Rewriting
import ZX.Proofs.Arena.Refinement
import ZX.Proofs.Arena.Tables
import ZX.Proofs.Recolouring
import ZX.Proofs.FixedPoint
import ZX.Proofs.Rule.Fusion
import ZX.Proofs.Rule.Identity
import ZX.Proofs.Rule.LocalComplement
import ZX.Proofs.Rule.Pivot
import ZX.Proofs.Rule.Headroom
import ZX.Proofs.Rule.Account
import ZX.Proofs.Rule.Exactness
import ZX.Proofs.Connection
import ZX.Proofs.Greening
import ZX.Proofs.Simplification
import ZX.Proofs.Quotient.Basic
import ZX.Proofs.Quotient.Steps
import ZX.Proofs.Quotient.Fusion
import ZX.Proofs.NormalForm
import ZX.Proofs.Clifford.Count
import ZX.Proofs.State
import ZX.Proofs.Unitary
import ZX.Proofs.Cleanup
import ZX.Proofs.Matrix.Steps
import ZX.Proofs.Matrix.Elimination
import ZX.Proofs.Matrix.RowSpace
import ZX.Proofs.Matrix.Replay
import ZX.Proofs.Matrix.Canonical
import ZX.Proofs.Lines
import ZX.Proofs.Extraction.Padding
import ZX.Proofs.Extraction.Residue
import ZX.Proofs.Extraction.Relay
import ZX.Proofs.Matrix.Parity
import ZX.Proofs.Extraction.Peeling
import ZX.Proofs.Extraction.Flow
import ZX.Proofs.Extraction.Frontier
import ZX.Proofs.Extraction.Advance
import ZX.Proofs.Extraction.Wiring
import ZX.Proofs.Extraction.Rewiring
import ZX.Proofs.Extraction.Round
import ZX.Proofs.Extraction.Rounds
import ZX.Proofs.Extraction.Permutation
import ZX.Proofs.Extraction.Extract
import ZX.Proofs.Extraction.Orderly
import ZX.Proofs.Extraction.Yield
import ZX.Proofs.Extraction.Stalling
import ZX.Proofs.Extraction.Stages
import ZX.Proofs.Extraction.Emission
import ZX.Proofs.Extraction.Shape
import ZX.Proofs.Cleanup.Batch
import ZX.Proofs.Drawing.Readout
import ZX.Proofs.Drawing.Extension
import ZX.Proofs.Drawing.Network
import ZX.Proofs.Drawing.Gates
import ZX.Proofs.Drawing.Circuit
import ZX.Proofs.Drawing.Wires
import ZX.Proofs.Clifford.Drawing
import ZX.Proofs.Rigidity.Transport
import ZX.Proofs.Rigidity.Flipping
import ZX.Proofs.Rigidity.Flow
import ZX.Proofs.Pipeline
import ZX.Proofs.Denominator.Phases
import ZX.Proofs.Denominator.Rules
import ZX.Proofs.Denominator.Pipeline
import ZX.Proofs.Qasm.Scan
import ZX.Proofs.Qasm.Read
import ZX.Proofs.Qasm.RoundTrip
import ZX.Proofs.Representative
import ZX.Proofs.Decomposition
import ZX.Proofs.Tensor.Entries
import ZX.Proofs.Tensor.Contraction
import ZX.Proofs.Tensor.Diagram
import ZX.Proofs.Transposition
import ZX.Proofs.Tensor.Action
import ZX.Proofs.Tensor.Composition
