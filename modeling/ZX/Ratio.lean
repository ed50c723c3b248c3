import ZX.Bounded

/-!
# Rational arithmetic in 64-bit terms

The values are exact rational numbers. Numerators, denominators and the products and sums on the
way to them have to fit signed 64-bit words; a step that does not fit is an overflow, even where
the reduced result would fit. The gcd of two words is itself a word, which fails only when both
operands lie in `{0, -2^63}`.
-/
namespace ZX.Ratio

/-- The fraction `n / d`. Reducing it takes a gcd, and a negative denominator costs a negation of
both terms. -/
def make (n d : Int) : Except Fault Rat := do
  if d = 0 then
    throw .zeroDenominator
  else if n = 0 ∨ n = d then
    return Rat.divInt n d
  else
    let g ← int64 (Int.gcd n d)
    if d < 0 then
      let _ ← int64 (-(n / g))
      let _ ← int64 (-(d / g))
      return Rat.divInt n d
    else
      return Rat.divInt n d

/-- Both numerators over the least common denominator, and that denominator. -/
def commonTerms (x y : Rat) : Except Fault (Int × Int × Int) := do
  let b : Int := x.den
  let d : Int := y.den
  let l ← int64 (b * (d / Int.gcd b d))
  let s ← int64 (x.num * (l / b))
  let t ← int64 (y.num * (l / d))
  return (s, t, l)

def add (x y : Rat) : Except Fault Rat := do
  if x.den = y.den then
    make (← int64 (x.num + y.num)) x.den
  else
    let (s, t, l) ← commonTerms x y
    make (← int64 (s + t)) l

def sub (x y : Rat) : Except Fault Rat := do
  if x.den = y.den then
    make (← int64 (x.num - y.num)) x.den
  else
    let (s, t, l) ← commonTerms x y
    make (← int64 (s - t)) l

/-- Each numerator is reduced against the other denominator before anything is multiplied. -/
def mul (x y : Rat) : Except Fault Rat := do
  let p : Int := Int.gcd x.num y.den
  let q : Int := Int.gcd x.den y.num
  let n ← int64 (x.num / p * (y.num / q))
  let d ← int64 (x.den / q * (y.den / p))
  make n d

/-- The multiplier is reduced against the denominator first. -/
def scale (x : Rat) (k : Int) : Except Fault Rat := do
  let g : Int := Int.gcd x.den k
  let n ← int64 (x.num * (k / g))
  make n (x.den / g)

def neg (x : Rat) : Except Fault Rat := do
  let _ ← int64 (-x.num)
  return -x

/-- Lowest terms, with the denominator left out of an integer. -/
def render (x : Rat) : String :=
  if x.den = 1 then toString x.num else toString x.num ++ "/" ++ toString x.den

end ZX.Ratio
