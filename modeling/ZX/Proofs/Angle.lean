import Mathlib
import ZX.Scalar
import ZX.Proofs.Outcome

/-!
# Angles and scalars as complex numbers

A phase stands for a unit complex number and a scalar for a nonzero complex number. The checked
arithmetic either overflows or computes these numbers exactly: a sum of phases is a product of
units, because a whole number of turns does not matter.
-/
namespace ZX

open Complex

namespace Ratio

theorem int64_ends (m : Int) : Ends (int64 m) (· = m) (· = .overflow) := by
  unfold int64
  split <;> simp

theorem make_ends {n d : Int} (hd : d ≠ 0) :
    Ends (make n d) (· = Rat.divInt n d) (· = .overflow) := by
  unfold make
  rw [if_neg hd]
  split
  · simp
  · refine (int64_ends _).bind fun k _ => ?_
    split
    · refine (int64_ends _).bind fun _ _ => (int64_ends _).bind fun _ _ => ?_
      simp
    · simp

/-- Both numerators over the common denominator give back the two numbers. -/
theorem commonTerms_ends (x y : Rat) :
    Ends (commonTerms x y)
      (fun r => r.2.2 ≠ 0 ∧ x = Rat.divInt r.1 r.2.2 ∧ y = Rat.divInt r.2.1 r.2.2)
      (· = .overflow) := by
  unfold commonTerms
  have hb : (x.den : Int) ≠ 0 := by exact_mod_cast x.den_nz
  have hd : (y.den : Int) ≠ 0 := by exact_mod_cast y.den_nz
  set k : Int := ((Int.gcd x.den y.den : ℕ) : ℤ) with hk
  have hkpos : k ≠ 0 := by
    rw [hk]
    exact_mod_cast Nat.gcd_ne_zero_left x.den_nz
  have hkb : k ∣ x.den := hk ▸ Int.gcd_dvd_left _ _
  have hkd : k ∣ y.den := hk ▸ Int.gcd_dvd_right _ _
  obtain ⟨b', hb'⟩ := hkb
  obtain ⟨d', hd'⟩ := hkd
  have hquot : (y.den : Int) / k = d' := by rw [hd', Int.mul_ediv_cancel_left _ hkpos]
  refine (int64_ends _).bind fun l hl => ?_
  subst hl
  rw [hquot]
  have hd'0 : d' ≠ 0 := by
    rintro rfl
    simp at hd'
  have hl0 : (x.den : Int) * d' ≠ 0 := mul_ne_zero hb hd'0
  have hlb : (x.den : Int) * d' / x.den = d' := Int.mul_ediv_cancel_left _ hb
  have hld : (x.den : Int) * d' / y.den = b' := by
    rw [hb', hd', mul_right_comm, mul_comm (k * d') b', Int.mul_ediv_cancel _ (hd' ▸ hd)]
  rw [hlb, hld]
  refine (int64_ends _).bind fun s hs => (int64_ends _).bind fun t ht => ?_
  subst hs ht
  refine Ends.pure_iff.mpr ⟨hl0, ?_, ?_⟩
  · rw [Rat.divInt_mul_right hd'0, Rat.num_divInt_den]
  · have hb'0 : b' ≠ 0 := by
      rintro rfl
      simp at hb'
    have hl : (x.den : Int) * d' = y.den * b' := by
      rw [hb', hd']
      ring
    rw [hl, Rat.divInt_mul_right hb'0, Rat.num_divInt_den]

theorem add_ends (x y : Rat) : Ends (add x y) (· = x + y) (· = .overflow) := by
  unfold add
  split
  · rename_i hden
    have hd : (x.den : Int) ≠ 0 := by exact_mod_cast x.den_nz
    refine (int64_ends _).bind fun n hn => (make_ends hd).imp fun r hr => ?_
    rw [hr, hn, Rat.add_divInt, Rat.num_divInt_den, hden, Rat.num_divInt_den]
  · refine (commonTerms_ends x y).bind fun r hr => ?_
    obtain ⟨s, t, l⟩ := r
    obtain ⟨hl, hx, hy⟩ := hr
    refine (int64_ends _).bind fun n hn => (make_ends hl).imp fun q hq => ?_
    rw [hq, hn, Rat.add_divInt, ← hx, ← hy]

/-- Lowest terms need no reduction. -/
theorem make_num_den (y : ℚ) : make y.num y.den = .ok y := by
  have hd0 : (y.den : ℤ) ≠ 0 := by exact_mod_cast y.den_nz
  have hdpos : (0 : ℤ) < y.den := by exact_mod_cast y.den_pos
  have hgcd : Int.gcd y.num y.den = 1 := by
    rw [Int.gcd, Int.natAbs_natCast]
    exact y.reduced
  unfold make
  rw [if_neg hd0, hgcd, Rat.num_divInt_den]
  simp only [if_neg (not_lt.mpr hdpos.le)]
  split <;> rfl

/-- A number that fits its word can be added to zero. -/
theorem add_of_zero {y : ℚ} (hden : (y.den : ℤ) < 2 ^ 63) (hnum : |y.num| < 2 ^ 63) :
    add 0 y = .ok y := by
  have hd0 : (y.den : ℤ) ≠ 0 := by exact_mod_cast y.den_nz
  obtain ⟨hlow, hhigh⟩ := abs_lt.mp hnum
  have hnum64 : int64 y.num = .ok y.num := int64_eq_ok.mpr ⟨⟨by omega, hhigh⟩, rfl⟩
  unfold add
  by_cases h1 : (0 : ℚ).den = y.den
  · rw [if_pos h1, Rat.num_zero, zero_add, hnum64, h1]
    exact make_num_den y
  · rw [if_neg h1]
    have hterms : commonTerms 0 y = .ok (0, y.num, (y.den : ℤ)) := by
      have hone : (((0 : ℚ).den : ℕ) : ℤ) = 1 := rfl
      unfold commonTerms
      simp only [hone, Int.one_gcd, Nat.cast_one, Int.ediv_one, one_mul, Rat.num_zero, zero_mul]
      rw [int64_eq_ok.mpr ⟨⟨by omega, hden⟩, rfl⟩]
      show (do
        let s ← int64 0
        let t ← int64 (y.num * (y.den / y.den))
        return (s, t, (y.den : ℤ))) = _
      rw [Int.ediv_self hd0, mul_one, hnum64]
      rfl
    rw [hterms]
    show (do make (← int64 (0 + y.num)) y.den) = _
    rw [zero_add, hnum64]
    exact make_num_den y

theorem neg_ends (x : Rat) : Ends (neg x) (· = -x) (· = .overflow) := by
  unfold neg
  exact (int64_ends _).bind fun _ _ => Ends.pure_iff.mpr rfl

end Ratio

namespace Phase

/-- The complex number `e^(i pi p)`. -/
noncomputable def unit (p : Phase) : ℂ := exp (Real.pi * (p.halfTurns : ℂ) * I)

/-- Equal up to a whole number of turns. -/
def SameAngle (p : Phase) (r : Rat) : Prop := ∃ n : ℤ, p.halfTurns = r + 2 * n

theorem unit_of_sameAngle {p : Phase} {r : Rat} (h : p.SameAngle r) :
    p.unit = exp (Real.pi * (r : ℂ) * I) := by
  obtain ⟨n, hn⟩ := h
  have hsplit : (Real.pi : ℂ) * (p.halfTurns : ℂ) * I =
      Real.pi * (r : ℂ) * I + n * (2 * Real.pi * I) := by
    rw [hn]
    push_cast
    ring
  rw [unit, hsplit, exp_add, exp_int_mul_two_pi_mul_I, mul_one]

theorem store_ends {r : Rat} (h : -1 < r ∧ r ≤ 1) :
    Ends (store r h) (fun p => p.halfTurns = r) (· = .overflow) := by
  unfold store
  split <;> simp

theorem ofRat_ends (r : Rat) : Ends (ofRat r) (fun p => p.SameAngle r) (· = .overflow) := by
  unfold ofRat
  split
  · exact (store_ends _).imp fun p hp => ⟨0, by simp [hp]⟩
  · refine (Ratio.int64_ends _).bind fun _ _ => (store_ends _).imp fun p hp => ?_
    refine ⟨-((r - 1) / 2).ceil, ?_⟩
    rw [hp, representative]
    push_cast
    ring

theorem add_ends (p q : Phase) :
    Ends (p.add q) (fun r => r.unit = p.unit * q.unit) (· = .overflow) := by
  unfold add
  refine (Ratio.add_ends _ _).bind fun r hr => (ofRat_ends r).imp fun s hs => ?_
  rw [unit_of_sameAngle hs, hr, unit, unit, ← exp_add]
  congr 1
  push_cast
  ring

theorem neg_ends (p : Phase) :
    Ends p.neg (fun r => r.unit = p.unit⁻¹) (· = .overflow) := by
  unfold neg
  refine (Ratio.neg_ends _).bind fun r hr => (ofRat_ends r).imp fun s hs => ?_
  rw [unit_of_sameAngle hs, hr, unit, ← exp_neg]
  congr 1
  push_cast
  ring

theorem abs_num_le (p : Phase) : |p.num| ≤ p.den := by
  have hpos : (0 : ℚ) < p.halfTurns.den := by exact_mod_cast p.halfTurns.den_pos
  have hle : |p.halfTurns| ≤ 1 := abs_le.mpr ⟨p.lower.le, p.upper⟩
  rw [← Rat.num_div_den p.halfTurns, abs_div, abs_of_pos hpos, div_le_one hpos] at hle
  exact_mod_cast hle

theorem ofRat_halfTurns (p : Phase) : ofRat p.halfTurns = .ok p := by
  rw [ofRat, dif_pos ⟨p.lower, p.upper⟩, store, dif_pos p.fits]

theorem add_of_zero (p : Phase) : zero.add p = .ok p := by
  have hden : (p.halfTurns.den : ℤ) < 2 ^ 63 := by exact_mod_cast p.fits
  have hnum : |p.halfTurns.num| < 2 ^ 63 := lt_of_le_of_lt p.abs_num_le hden
  unfold add
  rw [show zero.halfTurns = 0 from rfl, Ratio.add_of_zero hden hnum]
  exact ofRat_halfTurns p

theorem unit_ne_zero (p : Phase) : p.unit ≠ 0 := exp_ne_zero _

theorem norm_unit (p : Phase) : ‖p.unit‖ = 1 := by
  have h : (Real.pi : ℂ) * (p.halfTurns : ℂ) * I = ((Real.pi * (p.halfTurns : ℝ) : ℝ) : ℂ) * I := by
    push_cast
    ring
  rw [unit, h, norm_exp_ofReal_mul_I]

@[simp] theorem unit_zero : zero.unit = 1 := by simp [unit, zero]

@[simp] theorem unit_one : one.unit = -1 := by simp [unit, one]

theorem unit_quarter : quarter.unit = I := by
  have h : (Real.pi : ℂ) * ((mkRat 1 2 : ℚ) : ℂ) * I = Real.pi / 2 * I := by
    have : (mkRat 1 2 : ℚ) = 1 / 2 := by norm_num [Rat.mkRat_eq_div]
    rw [this]
    push_cast
    ring
  rw [unit, quarter, h, exp_pi_div_two_mul_I]

theorem unit_negQuarter : negQuarter.unit = -I := by
  have h : (Real.pi : ℂ) * ((mkRat (-1) 2 : ℚ) : ℂ) * I = -(Real.pi / 2 * I) := by
    have : (mkRat (-1) 2 : ℚ) = -(1 / 2) := by norm_num [Rat.mkRat_eq_div]
    rw [this]
    push_cast
    ring
  rw [unit, negQuarter, h, exp_neg, exp_pi_div_two_mul_I, inv_I]

end Phase

/-- Under its own name, this is part of the number two wherever a definition mentions it. -/
theorem atLeastTwo_two : Nat.AtLeastTwo 2 := inferInstance

namespace Scalar

attribute [local instance] atLeastTwo_two in
/-- The complex number `sqrt(2)^k e^(i pi p)`. -/
noncomputable def value (s : Scalar) : ℂ := (√2 : ℂ) ^ s.sqrt2Pow * s.phase.unit

theorem sqrt2_ne_zero : ((√2 : ℝ) : ℂ) ≠ 0 := by
  rw [Ne, ofReal_eq_zero]
  positivity

theorem sqrt2_mul_self : ((√2 : ℝ) : ℂ) * (√2 : ℝ) = 2 := by
  rw [← ofReal_mul, Real.mul_self_sqrt (by norm_num)]
  norm_num

theorem sqrt2_inv_mul_inv : ((√2 : ℝ) : ℂ)⁻¹ * ((√2 : ℝ) : ℂ)⁻¹ = 1 / 2 := by
  rw [← mul_inv, sqrt2_mul_self, one_div]

theorem value_one : one.value = 1 := by simp [value, one]

theorem int32_ends (m : Int) : Ends (int32 m) (· = m) (· = .overflow) := by
  unfold int32
  split <;> simp

theorem mulSqrt2Pow_ends (s : Scalar) (k : Int) :
    Ends (s.mulSqrt2Pow k) (fun r => r.value = (√2 : ℂ) ^ k * s.value ∧ r.phase = s.phase)
      (· = .overflow) := by
  unfold mulSqrt2Pow
  refine (int32_ends _).bind fun m hm => Ends.pure_iff.mpr ⟨?_, rfl⟩
  simp only [value, hm, zpow_add₀ sqrt2_ne_zero]
  ring

theorem mulPhase_ends (s : Scalar) (p : Phase) :
    Ends (s.mulPhase p) (fun r => r.value = p.unit * s.value) (· = .overflow) := by
  unfold mulPhase
  refine (Phase.add_ends _ _).bind fun q hq => ?_
  simp only [Ends.pure_iff, value, hq]
  ring

end Scalar

end ZX
