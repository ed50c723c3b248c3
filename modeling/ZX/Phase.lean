import ZX.Ratio

/-!
# Phases

A phase is an angle counted in half turns: a rational number in `(-1, 1]`. Angles that differ by a
whole number of turns, an even number of half turns, are one phase, so equality of phases is
equality of angles. Arithmetic is that of `ZX.Ratio` followed by the choice of the representative.
-/
namespace ZX

-- Powers of numbers are those of the core library.
attribute [local instance(high)] instPowNat

structure Phase where
  halfTurns : Rat
  lower : -1 < halfTurns
  upper : halfTurns ≤ 1
  fits : halfTurns.den < 2 ^ (63 : Nat)
deriving DecidableEq

namespace Phase

/-- The number in `(-1, 1]` that differs from `r` by an even integer. -/
def representative (r : Rat) : Rat := r - 2 * ((r - 1) / 2).ceil

theorem neg_one_lt_representative (r : Rat) : -1 < representative r := by
  have h : (((r - 1) / 2).ceil : Rat) < (r - 1) / 2 + 1 := Rat.ceil_lt
  unfold representative
  grind

theorem representative_le_one (r : Rat) : representative r ≤ 1 := by
  have h : (r - 1) / 2 ≤ (((r - 1) / 2).ceil : Rat) := Rat.le_ceil
  unfold representative
  grind

/-- A number of the right range, if its denominator fits a word. -/
def store (r : Rat) (h : -1 < r ∧ r ≤ 1) : Except Fault Phase :=
  if fits : r.den < 2 ^ (63 : Nat) then .ok ⟨r, h.1, h.2, fits⟩ else .error .overflow

/-- The phase of an angle. A number outside `(-1, 1]` is reduced modulo twice its denominator,
which has to fit a word. -/
def ofRat (r : Rat) : Except Fault Phase := do
  if h : -1 < r ∧ r ≤ 1 then
    store r h
  else
    let _ ← int64 (2 * r.den)
    store (representative r) ⟨neg_one_lt_representative r, representative_le_one r⟩

def ofInt (n : Int) : Except Fault Phase := ofRat n

def ofFraction (n d : Int) : Except Fault Phase := do
  ofRat (← Ratio.make n d)

def zero : Phase := ⟨0, by decide, by decide, by decide⟩

/-- Half a turn. -/
def one : Phase := ⟨1, by decide, by decide, by decide⟩

/-- The phase with these terms: a quarter turn has denominator 2, an eighth has 4. -/
def quarter : Phase := ⟨mkRat 1 2, by decide, by decide, by decide⟩

def negQuarter : Phase := ⟨mkRat (-1) 2, by decide, by decide, by decide⟩

def eighth : Phase := ⟨mkRat 1 4, by decide, by decide, by decide⟩

def negEighth : Phase := ⟨mkRat (-1) 4, by decide, by decide, by decide⟩

instance : Inhabited Phase := ⟨zero⟩

def num (p : Phase) : Int := p.halfTurns.num

def den (p : Phase) : Nat := p.halfTurns.den

def add (p q : Phase) : Except Fault Phase := do
  ofRat (← Ratio.add p.halfTurns q.halfTurns)

def sub (p q : Phase) : Except Fault Phase := do
  ofRat (← Ratio.sub p.halfTurns q.halfTurns)

def mul (p q : Phase) : Except Fault Phase := do
  ofRat (← Ratio.mul p.halfTurns q.halfTurns)

/-- An integer multiple. -/
def scale (p : Phase) (k : Int) : Except Fault Phase := do
  ofRat (← Ratio.scale p.halfTurns k)

def neg (p : Phase) : Except Fault Phase := do
  ofRat (← Ratio.neg p.halfTurns)

def isZero (p : Phase) : Bool := p = zero

def isOne (p : Phase) : Bool := p = one

/-- Multiples of a quarter turn. -/
def isClifford (p : Phase) : Bool := p.den ≤ 2

/-- A quarter turn in either direction. -/
def isProperClifford (p : Phase) : Bool := p = quarter || p = negQuarter

def isPauli (p : Phase) : Bool := p.isZero || p.isOne

def render (p : Phase) : String := Ratio.render p.halfTurns

def toFloat (p : Phase) : Float := Float.ofInt p.num / Float.ofNat p.den

/-- The operations that rewriting a diagram needs. What is rewritten, and when, does not depend on
how these compute. -/
structure Arithmetic where
  add : Phase → Phase → Except Fault Phase
  neg : Phase → Except Fault Phase
  ofFraction : Int → Int → Except Fault Phase

/-- The operations on machine words. -/
def Arithmetic.words : Arithmetic := ⟨Phase.add, Phase.neg, Phase.ofFraction⟩

@[simp] theorem Arithmetic.words_add (p q : Phase) : words.add p q = p.add q := rfl

@[simp] theorem Arithmetic.words_neg (p : Phase) : words.neg p = p.neg := rfl

@[simp] theorem Arithmetic.words_ofFraction (n d : Int) :
    words.ofFraction n d = Phase.ofFraction n d := rfl

end Phase

end ZX
