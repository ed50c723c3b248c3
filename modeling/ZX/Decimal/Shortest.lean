/-!
# Shortest decimals of binary fractions

A finite double is a dyadic number with an interval of reals that round to it. Its shortest
decimal is the first point of the decimal grids `10^k`, `10^(k-1)`, ... that lies in the interval;
of two points on one grid the nearer one wins, and the upper one of two equally near. The number
is written out positionally, without an exponent and without a fraction for integers.
-/
namespace ZX.Decimal

-- Powers of numbers are those of the core library.
attribute [local instance(high)] instPowNat

/-- The magnitude `significand * 2^exponent` of a finite double. -/
structure Dyadic where
  significand : Nat
  exponent : Int
  /-- The gap below is half the gap above, as it is above each power of two. -/
  narrowBelow : Bool

/-- A nonnegative fraction. -/
structure Fraction where
  num : Nat
  den : Nat

def Fraction.le (a b : Fraction) : Bool := a.num * b.den ≤ b.num * a.den

def Fraction.lt (a b : Fraction) : Bool := a.num * b.den < b.num * a.den

def Fraction.ofDyadic (n : Nat) (e : Int) : Fraction :=
  if 0 ≤ e then ⟨n * 2 ^ e.toNat, 1⟩ else ⟨n, 2 ^ (-e).toNat⟩

def Fraction.ofDecimal (n : Nat) (e : Int) : Fraction :=
  if 0 ≤ e then ⟨n * 10 ^ e.toNat, 1⟩ else ⟨n, 10 ^ (-e).toNat⟩

/-- The number of decimal digits. -/
def digitCount (n : Nat) : Nat := (Nat.toDigits 10 n).length

/-- The exponent of the leading decimal digit of a positive fraction. The power of ten that the
fraction is multiplied by exceeds its denominator, so that no leading digit is lost. -/
def leadingExponent (v : Fraction) : Int :=
  let shift := digitCount v.den
  (digitCount (v.num * 10 ^ shift / v.den) : Int) - shift - 1

/-- A digit string `digits * 10^exponent`. -/
structure Scientific where
  digits : Nat
  exponent : Int

/-- The point of the grid `10^e` that rounds to the number, if there is one. -/
def gridPoint (d : Dyadic) (e : Int) : Option Scientific :=
  let v := Fraction.ofDyadic (4 * d.significand) (d.exponent - 2)
  let lo := Fraction.ofDyadic (4 * d.significand - (if d.narrowBelow then 1 else 2)) (d.exponent - 2)
  let hi := Fraction.ofDyadic (4 * d.significand + 2) (d.exponent - 2)
  let closed := d.significand % 2 = 0
  let inside (x : Fraction) : Bool :=
    if closed then lo.le x && x.le hi else lo.lt x && x.lt hi
  let below :=
    if 0 ≤ e then v.num / (v.den * 10 ^ e.toNat) else v.num * 10 ^ (-e).toNat / v.den
  let low := Fraction.ofDecimal below e
  let high := Fraction.ofDecimal (below + 1) e
  -- twice the value against the sum of its two neighbours on the grid
  let nearerLow : Bool :=
    Fraction.lt ⟨2 * v.num, v.den⟩ ⟨low.num + high.num, low.den⟩
  match inside low, inside high with
  | true, true => some ⟨if nearerLow then below else below + 1, e⟩
  | true, false => some ⟨below, e⟩
  | false, true => some ⟨below + 1, e⟩
  | false, false => none

/-- Tries grids of one digit, two digits and so on; seventeen always suffice. -/
def shortest (d : Dyadic) : Scientific :=
  let k := leadingExponent (Fraction.ofDyadic d.significand d.exponent)
  let found := (List.range 17).findSome? fun (i : Nat) => gridPoint d (k - i)
  found.getD ⟨0, 0⟩

/-- Positional notation, with as many zeros as the exponent asks for. -/
def Scientific.positional (s : Scientific) : String :=
  let ds := Nat.toDigits 10 s.digits
  if 0 ≤ s.exponent then
    String.ofList (ds ++ List.replicate s.exponent.toNat '0')
  else
    let places := (-s.exponent).toNat
    let padded := List.replicate (places + 1 - ds.length) '0' ++ ds
    let whole := padded.take (padded.length - places)
    let fraction := (padded.drop (padded.length - places)).reverse.dropWhile (· = '0')
    if fraction.isEmpty then String.ofList whole
    else String.ofList (whole ++ '.' :: fraction.reverse)

/-- The text of a double: shortest digits, never an exponent, `-0` for negative zero. -/
def render (x : Float) : String :=
  let bits := x.toBits.toNat
  let mantissa : Nat := bits % 2 ^ (52 : Nat)
  let biased : Nat := bits / 2 ^ (52 : Nat) % 2 ^ (11 : Nat)
  let sign := if bits / 2 ^ (63 : Nat) = 1 then "-" else ""
  if biased = 2047 then
    if mantissa = 0 then sign ++ "inf" else "NaN"
  else if biased = 0 ∧ mantissa = 0 then
    sign ++ "0"
  else if biased = 0 then
    sign ++ (shortest ⟨mantissa, -1074, false⟩).positional
  else
    let narrow := mantissa = 0 ∧ 1 < biased
    sign ++ (shortest ⟨2 ^ (52 : Nat) + mantissa, (biased : Int) - 1075, narrow⟩).positional

/-- A key whose integer order is the total order of doubles: negative numbers by decreasing bit
pattern, then positive ones by increasing bit pattern. -/
def orderKey (x : Float) : Int :=
  let bits := x.toBits.toNat
  if bits < 2 ^ (63 : Nat) then bits else 2 ^ (63 : Nat) - 1 - bits

end ZX.Decimal
