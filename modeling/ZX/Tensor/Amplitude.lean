import ZX.Scalar

/-!
# Amplitudes

What the entries of a tensor have to offer: ring operations, the constants of the calculus, and a
bound on the tensors that can be stored. The instance here computes with pairs of doubles.
-/
namespace ZX

class Amplitude (K : Type) extends Zero K, One K, Add K, Sub K, Mul K where
  /-- The unit number at an angle. -/
  ofPhase : Phase → K
  ofScalar : Scalar → K
  /-- The number `1/sqrt(2)`. -/
  invSqrt2 : K
  /-- Whether a tensor with so many axes can be stored. -/
  checkRank : Nat → Except Fault Unit

/-- A complex number in doubles. -/
structure FloatComplex where
  re : Float
  im : Float

namespace FloatComplex

def pi : Float := 3.141592653589793

def halfRoot : Float := 0.7071067811865476

/-- A power by repeated squaring, from the lowest bit of the exponent up. The first argument bounds
the number of bits. -/
def powNat : Nat → Float → Nat → Float → Float
  | 0, r, _, _ => r
  | bits + 1, r, n, a =>
      let r := if n % 2 = 1 then r * a else r
      if n / 2 = 0 then r else powNat bits r (n / 2) (a * a)

def powInt (a : Float) (k : Int) : Float :=
  let r := powNat 64 1 k.natAbs a
  if k < 0 then 1 / r else r

def polar (radius angle : Float) : FloatComplex :=
  ⟨radius * angle.cos, radius * angle.sin⟩

def ofScalar (s : Scalar) : FloatComplex :=
  polar (powInt (Float.sqrt 2) s.sqrt2Pow) (pi * s.phase.toFloat)

/-- The distance from zero. The squares are taken of numbers near one, so that they neither
overflow nor vanish; an infinite part makes the distance infinite, whatever the other part is. -/
def norm (z : FloatComplex) : Float :=
  if z.re.isInf || z.im.isInf then 1 / 0
  else
    let larger := if z.re.abs < z.im.abs then z.im.abs else z.re.abs
    let e := larger.frExp.2
    let x := z.re.scaleB (-e)
    let y := z.im.scaleB (-e)
    (x * x + y * y).sqrt.scaleB e

/-- An entry takes 16 bytes, and `2^59` entries are too many to be addressed. The number of axes
itself has to be a word. -/
def checkRank (rank : Nat) : Except Fault Unit := do
  let rank ← nat64 rank
  if rank < 59 then return () else throw .tooLarge

instance : Amplitude FloatComplex where
  zero := ⟨0, 0⟩
  one := ⟨1, 0⟩
  add z w := ⟨z.re + w.re, z.im + w.im⟩
  sub z w := ⟨z.re - w.re, z.im - w.im⟩
  mul z w := ⟨z.re * w.re - z.im * w.im, z.re * w.im + z.im * w.re⟩
  ofPhase p := polar 1 (pi * p.toFloat)
  ofScalar := ofScalar
  invSqrt2 := ⟨halfRoot, 0⟩
  checkRank := checkRank

end FloatComplex

end ZX
