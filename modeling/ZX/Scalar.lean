import ZX.Phase

/-!
# Scalars

The number in front of a diagram, `sqrt(2)^k * e^(i pi p)`, kept exactly as the pair `(k, p)`. The
exponent is a signed 32-bit word.
-/
namespace ZX

structure Scalar where
  sqrt2Pow : Int
  phase : Phase
deriving DecidableEq

namespace Scalar

def one : Scalar := ⟨0, Phase.zero⟩

instance : Inhabited Scalar := ⟨one⟩

def isOne (s : Scalar) : Bool := s.sqrt2Pow = 0 && s.phase.isZero

def mulSqrt2Pow (s : Scalar) (k : Int) : Except Fault Scalar := do
  return { s with sqrt2Pow := ← int32 (s.sqrt2Pow + k) }

def mulPhase (s : Scalar) (p : Phase) (ops : Phase.Arithmetic := .words) : Except Fault Scalar := do
  return { s with phase := ← ops.add s.phase p }

def mul (s t : Scalar) : Except Fault Scalar := do
  let k ← int32 (s.sqrt2Pow + t.sqrt2Pow)
  let p ← s.phase.add t.phase
  return ⟨k, p⟩

def render (s : Scalar) : String :=
  let magnitude := "sqrt(2)^" ++ toString s.sqrt2Pow
  if s.phase.isZero then magnitude else magnitude ++ " * exp(i pi " ++ s.phase.render ++ ")"

end Scalar

end ZX
