import ZX.Ratio

/-!
# Rational numbers near a single-precision float

Partial quotients of the continued fraction of the float, taken in single precision, build up the
convergents exactly. The search ends when a convergent is as close as single precision can tell,
when the next one would leave the 64-bit range, or after thirty quotients.
-/
namespace ZX.Ratio

-- Powers of numbers are those of the core library.
attribute [local instance(high)] instPowNat

/-- The largest signed 64-bit word. -/
def maxWord : Nat := 2 ^ (63 : Nat) - 1

/-- Two neighbouring convergents `n0/d0` and `n1/d1`. -/
structure Convergents where
  n0 : Nat
  d0 : Nat
  n1 : Nat
  d1 : Nat

/-- One more quotient would overflow. -/
def Convergents.full (c : Convergents) (a : Nat) : Bool :=
  a ≠ 0 && (c.n1 > maxWord / a || c.d1 > maxWord / a
    || a * c.n1 > maxWord - c.n0 || a * c.d1 > maxWord - c.d0)

/-- At most so many quotients of `q`, whose first convergents are given. -/
def convergents (target : Float32) : Nat → Float32 → Convergents → Convergents
  | 0, _, c => c
  | steps + 1, q, c =>
      if q ≥ 9223372036854775808 then c
      else
        let a := q.toUInt64.toNat
        let rest := q - Float32.ofNat a
        if c.full a then c
        else
          let n := a * c.n1 + c.n0
          let d := a * c.d1 + c.d0
          let g := max (Nat.gcd n d) 1
          let c := ⟨c.n1, c.d1, n / g, d / g⟩
          if (Float32.ofNat n / Float32.ofNat d - target).abs < 1e-19 then c
          else if rest < 1 / 9223372036854775808 then c
          else convergents target steps (1 / rest) c

/-- A rational number near the float, if the float is a number within the 64-bit range. -/
def approximate (x : Float32) : Option Rat :=
  if x.isNaN || x.abs > 9223372036854775808 then none
  else
    let c := convergents x.abs 30 x.abs ⟨0, 1, 1, 0⟩
    if c.d1 = 0 then none
    else
      let r := mkRat c.n1 c.d1
      some (if x.toBits ≥ 2147483648 then -r else r)

/-- The single-precision quotient of the terms. -/
def toFloat32 (x : Rat) : Float32 := Float32.ofInt x.num / Float32.ofNat x.den

/-- The natural number whose `d`-th power is `n`. -/
def exactRoot (d n : Nat) : Option Nat :=
  if n ≤ 1 then some n
  else if 64 ≤ d then none
  else
    let r := (List.range 64).foldl (fun r k =>
      let next := r + 2 ^ (63 - k)
      if next ^ d ≤ n then next else r) 0
    if r ^ d = n then some r else none

/-- The exact `d`-th root of a nonnegative rational number. -/
def root (d : Nat) (x : Rat) : Option Rat :=
  if x < 0 then none
  else
    match exactRoot d x.num.toNat, exactRoot d x.den with
    | some n, some m => some (mkRat n m)
    | _, _ => none

/-- The fraction `n / d`, if it exists and its terms fit. -/
def make? (n d : Int) : Option Rat := (make n d).toOption

/-- A quotient, if it exists and its terms fit. Terms over one denominator, and over one numerator,
divide without a product. Otherwise the numerators are reduced by their gcd, which has to be a
word. -/
def div? (x y : Rat) : Except Fault (Option Rat) := do
  if y = 0 then return none
  else if x.den = y.den then return make? x.num y.num
  else if x.num = y.num then return make? y.den x.den
  else
    let p ← int64 (Int.gcd x.num y.num)
    let q : Int := Int.gcd x.den y.den
    return do
      let d ← (int64 (x.den / q * (y.num / p))).toOption
      let n ← (int64 (x.num / p * (y.den / q))).toOption
      make? n d

/-- The reciprocal of a number other than zero. -/
def inv (x : Rat) : Except Fault Rat := make x.den x.num

end ZX.Ratio
