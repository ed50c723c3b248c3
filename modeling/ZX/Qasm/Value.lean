import ZX.Phase
import ZX.Qasm.Error
import ZX.Qasm.Program
import ZX.Ratio.Approximation

/-!
# Values of parameters

A parameter is a sum `a + b * pi` with rational coefficients in 64-bit terms. What cannot be
computed exactly goes through single precision and back to a nearby rational number. A step that
leaves the range makes the program fail.
-/
namespace ZX.Qasm

-- Powers of numbers are those of the core library.
attribute [local instance(high)] instPowNat

structure Value where
  rational : Rat
  piMultiple : Rat
deriving DecidableEq

namespace Value

/-- Results of arithmetic on parameters. -/
abbrev Result (α : Type) := Except Failure α

def failed {α : Type} : Result α := .error (.errors [.linearization])

/-- A step whose fault is an ordinary failure. -/
def checked {α : Type} (x : Except Fault α) : Result α :=
  match x with
  | .ok a => .ok a
  | .error _ => failed

/-- A step whose fault ends everything. -/
def unchecked {α : Type} (x : Except Fault α) : Result α := x.mapError .fault

def ofRat (r : Rat) : Value := ⟨r, 0⟩

def pi : Value := ⟨0, 1⟩

/-- A nearby rational number, which has to exist. -/
def approximate (x : Float32) : Result Value :=
  match Ratio.approximate x with
  | some r => .ok (ofRat r)
  | none => failed

/-- Unsigned words are read as signed ones. -/
def ofWord (n : Nat) : Value :=
  ofRat (if n < 2 ^ (63 : Nat) then n else (n : Int) - 2 ^ (64 : Nat) : Int)

def singlePi : Float32 := 3.14159265

def toFloat32 (x : Value) : Float32 :=
  Ratio.toFloat32 x.rational + singlePi * Ratio.toFloat32 x.piMultiple

def isZero (x : Value) : Bool := x.rational = 0 && x.piMultiple = 0

def add (x y : Value) : Result Value := do
  let a ← checked (Ratio.add x.rational y.rational)
  let b ← checked (Ratio.add x.piMultiple y.piMultiple)
  return ⟨a, b⟩

def sub (x y : Value) : Result Value := do
  let a ← checked (Ratio.sub x.rational y.rational)
  let b ← checked (Ratio.sub x.piMultiple y.piMultiple)
  return ⟨a, b⟩

/-- A rational number near the square of pi. -/
def piSquared : Rat := mkRat 6499908331188584841 658578405682719844

def mul (x y : Value) : Result Value := do
  let square ← checked (Ratio.mul (← checked (Ratio.mul x.piMultiple y.piMultiple)) piSquared)
  let a ← checked (Ratio.add (← checked (Ratio.mul x.rational y.rational)) square)
  let left ← checked (Ratio.mul x.piMultiple y.rational)
  let right ← checked (Ratio.mul x.rational y.piMultiple)
  return ⟨a, ← checked (Ratio.add left right)⟩

def neg (x : Value) : Result Value := x.mul (ofRat (-1))

/-- A quotient of coefficients, which has to exist. -/
def quotient (x y : Rat) : Result Rat := do
  match ← unchecked (Ratio.div? x y) with
  | some r => return r
  | none => failed

/-- Exact where the quotient has the form of a parameter. -/
def div (x y : Value) : Result Value := do
  if y.isZero then
    failed
  else if y.piMultiple = 0 then
    let a ← quotient x.rational y.rational
    let b ← quotient x.piMultiple y.rational
    return ⟨a, b⟩
  else if y.rational = 0 then
    if x.rational = 0 then
      return ofRat (← quotient x.piMultiple y.piMultiple)
    else
      approximate (x.toFloat32 / y.toFloat32)
  else
    let a ← quotient x.rational y.rational
    let b ← quotient x.piMultiple y.piMultiple
    if a = b then return ofRat a else approximate (x.toFloat32 / y.toFloat32)

/-- A power by squaring; the first argument bounds the bits of the exponent. -/
def powNat (x : Rat) : Nat → Nat → Result Rat
  | 0, _ => return 1
  | bits + 1, n =>
      if n = 0 then return 1
      else if n = 1 then return x
      else do
        let half ← powNat x bits (n / 2)
        let square ← checked (Ratio.mul half half)
        if n % 2 = 1 then checked (Ratio.mul square x) else return square

/-- The `d`-th root, exact where it is rational. -/
def rootOf (d : Nat) (p : Rat) : Result Rat := do
  if d = 1 ∨ p = 1 then
    return p
  else
    match Ratio.root d p with
    | some r => return r
    | none => return (← approximate (Ratio.toFloat32 p |>.pow (1 / Float32.ofNat d))).rational

def pow (x y : Value) : Result Value := do
  if x.piMultiple = 0 ∧ y.piMultiple = 0 then
    let n ← unchecked (int64 y.rational.num.natAbs)
    let p ← powNat x.rational 64 n.toNat
    let r ← rootOf y.rational.den p
    if y.rational < 0 then
      if r = 0 then failed else return ofRat (← unchecked (Ratio.inv r))
    else
      return ofRat r
  else
    approximate (x.toFloat32.pow y.toFloat32)

def sqrt (x : Value) : Result Value :=
  match (if x.piMultiple = 0 then Ratio.root 2 x.rational else none) with
  | some r => return ofRat r
  | none => approximate x.toFloat32.sqrt

/-- The multiple of pi reduced to `[0, 2)`. -/
def reducedTurn (b : Rat) : Result Rat := do
  let half ← checked (Ratio.mul b (mkRat 1 2))
  let r ← unchecked (Ratio.sub half ((Int.tdiv half.num half.den : Int) : Rat))
  let r ← unchecked (Ratio.scale r 2)
  if r < 0 then unchecked (Ratio.add r 2) else return r

/-- The angles with a rational sine, half a turn excepted. -/
def exactSine (r : Rat) : Option Rat :=
  if r = 0 then some 0
  else if r = mkRat 1 6 ∨ r = mkRat 5 6 then some (mkRat 1 2)
  else if r = mkRat 1 2 then some 1
  else if r = mkRat 7 6 ∨ r = mkRat 11 6 then some (mkRat (-1) 2)
  else if r = mkRat 3 2 then some (-1)
  else none

def sin (x : Value) : Result Value := do
  if x.rational = 0 then
    match exactSine (← reducedTurn x.piMultiple) with
    | some r => return ofRat r
    | none => approximate x.toFloat32.sin
  else
    approximate x.toFloat32.sin

def cos (x : Value) : Result Value := do sin (← x.add ⟨0, mkRat 1 2⟩)

def tan (x : Value) : Result Value := do (← x.sin).div (← x.cos)

def apply : Function → Value → Result Value
  | .sin, x => x.sin
  | .cos, x => x.cos
  | .tan, x => x.tan
  | .exp, x => approximate x.toFloat32.exp
  | .ln, x => approximate x.toFloat32.log
  | .sqrt, x => x.sqrt

/-- Combines two results, both of which are computed first: a fault of the second ends everything,
even where the first one failed. -/
def combine (f : Value → Value → Result Value) : Result Value → Result Value → Result Value
  | .ok x, .ok y => f x y
  | .error (.errors _), .error (.fault e) => .error (.fault e)
  | .error e, _ => .error e
  | .ok _, .error e => .error e

def binary : BinaryOp → Value → Value → Result Value
  | .add => add
  | .sub => sub
  | .mul => mul
  | .div => div
  | .pow => pow

/-- The angle of a gate. A rational part is taken as a number of radians. -/
def toPhase (x : Value) : Result Phase := do
  if x.rational = 0 then
    unchecked (Phase.ofRat x.piMultiple)
  else
    let r := (Ratio.approximate (Ratio.toFloat32 x.rational / singlePi)).getD 0
    unchecked (Phase.ofRat (← unchecked (Ratio.add r x.piMultiple)))

end Value

/-- The value of an expression, given those of the parameters. -/
def Expr.eval (env : List (String × Value)) : Expr → Value.Result Value
  | .pi => return Value.pi
  | .int n => return Value.ofWord n
  | .real digits places => Value.approximate (Float32.ofScientific digits true places)
  | .parameter name =>
      match env.lookup name with
      | some x => return x
      | none => Value.failed
  | .neg e => do (← e.eval env).neg
  | .binary op l r => Value.combine (Value.binary op) (l.eval env) (r.eval env)
  | .apply f e => do Value.apply f (← e.eval env)

end ZX.Qasm
