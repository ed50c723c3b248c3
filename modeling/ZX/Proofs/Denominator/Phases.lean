import Mathlib
import ZX.Proofs.Agreement
import ZX.Proofs.Angle

/-!
# Phases with a common denominator

The sum of two phases whose denominators divide `D` has a denominator that divides `D`. All that is
computed on the way to it is at most `2 * D` in size, which fits a word when `D` is below `2 ^ 62`.
So the phases over `D` are closed under the operations that rewriting uses, and none of these
overflows. The guarded operations make that visible in a run: they end it with a fault of their own
as soon as an operand or a result is not over `D`, or a word overflows.
-/
namespace ZX

namespace Ratio

variable {x y : ℚ} {n d : ℤ} {D : ℕ}

theorem int64_of_abs_lt (h : |n| < 2 ^ 63) : int64 n = .ok n := by
  obtain ⟨hlow, hhigh⟩ := abs_lt.mp h
  exact int64_eq_ok.mpr ⟨⟨by omega, hhigh⟩, rfl⟩

theorem make_of_pos (hd : 0 < d) (hlt : d < 2 ^ 63) : make n d = .ok (Rat.divInt n d) := by
  have hgcd : ((Int.gcd n d : ℕ) : ℤ) ≤ d := Int.le_of_dvd hd (Int.gcd_dvd_right n d)
  have hword : int64 (Int.gcd n d) = .ok ((Int.gcd n d : ℕ) : ℤ) :=
    int64_eq_ok.mpr ⟨⟨by omega, by omega⟩, rfl⟩
  unfold make
  rw [if_neg hd.ne', hword]
  split
  · rfl
  · show (if d < 0 then _ else _) = _
    rw [if_neg (not_lt.mpr hd.le)]
    rfl

/-- A numerator over a multiple of its denominator. -/
theorem abs_num_mul_le {l : ℤ} (hnum : |x.num| ≤ x.den) (hl : 0 < l) (hdvd : (x.den : ℤ) ∣ l) :
    |x.num * (l / x.den)| ≤ l := by
  obtain ⟨k, rfl⟩ := hdvd
  have hden : (0 : ℤ) < x.den := by exact_mod_cast x.den_pos
  have hk : 0 < k := pos_of_mul_pos_right hl hden.le
  rw [Int.mul_ediv_cancel_left _ hden.ne', abs_mul, abs_of_pos hk]
  exact mul_le_mul_of_nonneg_right hnum hk.le

theorem commonTerms_of_dvd (hD : 0 < D) (hlt : D < 2 ^ 63) (hx : x.den ∣ D) (hy : y.den ∣ D)
    (hxnum : |x.num| ≤ x.den) (hynum : |y.num| ≤ y.den) :
    ∃ s t l, commonTerms x y = .ok (s, t, l) ∧ 0 < l ∧ l ≤ D ∧ |s| ≤ l ∧ |t| ≤ l := by
  set l : ℤ := ((x.den.lcm y.den : ℕ) : ℤ) with hl
  have hterm : (x.den : ℤ) * ((y.den : ℤ) / ((Int.gcd x.den y.den : ℕ) : ℤ)) = l := by
    rw [Int.gcd_natCast_natCast, ← Int.natCast_div, ← Int.natCast_mul, hl,
      ← Nat.mul_div_assoc _ (Nat.gcd_dvd_right _ _), Nat.lcm]
  have hpos : 0 < l := by
    rw [hl]
    exact_mod_cast Nat.lcm_pos x.den_pos y.den_pos
  have hle : l ≤ D := by
    rw [hl]
    exact_mod_cast Nat.le_of_dvd hD (Nat.lcm_dvd hx hy)
  have hs : |x.num * (l / x.den)| ≤ l :=
    abs_num_mul_le hxnum hpos (by rw [hl]; exact_mod_cast Nat.dvd_lcm_left _ _)
  have ht : |y.num * (l / y.den)| ≤ l :=
    abs_num_mul_le hynum hpos (by rw [hl]; exact_mod_cast Nat.dvd_lcm_right _ _)
  have hword : l < 2 ^ 63 := by omega
  refine ⟨_, _, l, ?_, hpos, hle, hs, ht⟩
  unfold commonTerms
  simp only [hterm]
  rw [int64_of_abs_lt (by rw [abs_of_pos hpos]; exact hword)]
  show (do
    let s ← int64 (x.num * (l / x.den))
    let t ← int64 (y.num * (l / y.den))
    return (s, t, l)) = _
  rw [int64_of_abs_lt (hs.trans_lt hword), int64_of_abs_lt (ht.trans_lt hword)]
  rfl

/-- Sums over a common denominator do not overflow. -/
theorem add_of_dvd (hD : 0 < D) (hlt : D < 2 ^ 62) (hx : x.den ∣ D) (hy : y.den ∣ D)
    (hxnum : |x.num| ≤ x.den) (hynum : |y.num| ≤ y.den) : add x y = .ok (x + y) := by
  suffices h : ∃ z, add x y = .ok z by
    obtain ⟨z, hz⟩ := h
    rw [hz, (add_ends x y).of_eq_ok hz]
  have hsum : ∀ {s t l : ℤ}, |s| ≤ l → |t| ≤ l → l ≤ D → int64 (s + t) = .ok (s + t) := by
    intro s t l hs ht hl
    have habs := abs_add_le s t
    exact int64_of_abs_lt (by omega)
  unfold add
  by_cases hden : x.den = y.den
  · have hpos : (0 : ℤ) < x.den := by exact_mod_cast x.den_pos
    have hle : (x.den : ℤ) ≤ D := by exact_mod_cast Nat.le_of_dvd hD hx
    rw [if_pos hden, hsum hxnum (hden ▸ hynum) hle]
    exact ⟨_, make_of_pos hpos (by omega)⟩
  · obtain ⟨s, t, l, hterms, hpos, hle, hs, ht⟩ :=
      commonTerms_of_dvd hD (by omega) hx hy hxnum hynum
    rw [if_neg hden, hterms]
    show ∃ z, (do make (← int64 (s + t)) l) = .ok z
    rw [hsum hs ht hle]
    exact ⟨_, make_of_pos hpos (by omega)⟩

end Ratio

namespace Phase

variable {p q : Phase} {n d : ℤ} {D : ℕ}

theorem den_representative (r : ℚ) : (representative r).den = r.den := by
  have hshift : representative r = r - ((2 * ((r - 1) / 2).ceil : ℤ) : ℚ) := by
    rw [representative]
    push_cast
    rfl
  rw [hshift, Rat.sub_intCast_den]

/-- Choosing the representative keeps the denominator. -/
theorem ofRat_of_den_lt {r : ℚ} (h : r.den < 2 ^ 62) : ∃ p, ofRat r = .ok p ∧ p.den = r.den := by
  unfold ofRat
  split
  · rename_i hr
    exact ⟨⟨r, hr.1, hr.2, by omega⟩, by rw [store, dif_pos], rfl⟩
  · have hword : int64 (2 * r.den) = .ok (2 * (r.den : ℤ)) :=
      int64_eq_ok.mpr ⟨⟨by omega, by omega⟩, rfl⟩
    have hfits : (representative r).den < 2 ^ 63 := by
      rw [den_representative]
      omega
    refine ⟨⟨representative r, neg_one_lt_representative r, representative_le_one r, hfits⟩, ?_,
      den_representative r⟩
    rw [hword]
    show store (representative r) ⟨neg_one_lt_representative r, representative_le_one r⟩ = _
    rw [store, dif_pos hfits]

theorem add_of_dvd (hD : 0 < D) (hlt : D < 2 ^ 62) (hp : p.den ∣ D) (hq : q.den ∣ D) :
    ∃ r, p.add q = .ok r ∧ r.den ∣ D := by
  have hsum : (p.halfTurns + q.halfTurns).den ∣ D :=
    (Rat.add_den_dvd_lcm _ _).trans (Nat.lcm_dvd hp hq)
  obtain ⟨r, hr, hden⟩ := ofRat_of_den_lt ((Nat.le_of_dvd hD hsum).trans_lt hlt)
  refine ⟨r, ?_, hden ▸ hsum⟩
  rw [add, Ratio.add_of_dvd hD hlt hp hq p.abs_num_le q.abs_num_le]
  exact hr

theorem neg_of_den_lt (h : p.den < 2 ^ 62) : ∃ r, p.neg = .ok r ∧ r.den = p.den := by
  have hden : (-p.halfTurns).den = p.den := Rat.neg_den _
  obtain ⟨r, hr, hr'⟩ := ofRat_of_den_lt (hden ▸ h)
  refine ⟨r, ?_, hr'.trans hden⟩
  have hnum : |-p.halfTurns.num| < 2 ^ 63 := by
    rw [abs_neg]
    exact p.abs_num_le.trans_lt (by exact_mod_cast h.trans (by norm_num))
  rw [neg, Ratio.neg, Ratio.int64_of_abs_lt hnum]
  exact hr

theorem ofFraction_of_pos (hd : 0 < d) (hlt : d < 2 ^ 62) :
    ∃ r, ofFraction n d = .ok r ∧ (r.den : ℤ) ∣ d := by
  have hdvd := Rat.den_dvd n d
  have hle := Int.le_of_dvd hd hdvd
  obtain ⟨r, hr, hden⟩ := ofRat_of_den_lt (r := Rat.divInt n d) (by omega)
  refine ⟨r, ?_, hden ▸ hdvd⟩
  rw [ofFraction, Ratio.make_of_pos hd (by omega)]
  exact hr

namespace Arithmetic

/-- Two ways to compute that agree on the phases with `S` and do not lead out of these. -/
structure Alike (S : Phase → Prop) (ops ops' : Arithmetic) : Prop where
  zero : S Phase.zero
  one : S Phase.one
  add : ∀ {p q}, S p → S q → Agrees (ops.add p q) (ops'.add p q) S
  neg : ∀ {p}, S p → Agrees (ops.neg p) (ops'.neg p) S
  ofFraction : ∀ n, Agrees (ops.ofFraction n 4) (ops'.ofFraction n 4) S

/-- A result over `D` as it is, and the given fault in place of anything else. -/
def vetted (D : ℕ) (e : Fault) : Except Fault Phase → Except Fault Phase
  | .ok r => if r.den ∣ D then .ok r else .error e
  | .error _ => .error e

/-- The operations on words, kept to operands and results over `D`. -/
def guarded (D : ℕ) (e : Fault) : Arithmetic where
  add p q := if p.den ∣ D ∧ q.den ∣ D then vetted D e (p.add q) else .error e
  neg p := if p.den ∣ D then vetted D e p.neg else .error e
  ofFraction n d := vetted D e (Phase.ofFraction n d)

theorem vetted_agrees {x : Except Fault Phase} (e : Fault) (h : ∃ r, x = .ok r ∧ r.den ∣ D) :
    Agrees (vetted D e x) x fun r => r.den ∣ D := by
  obtain ⟨r, rfl, hr⟩ := h
  exact ⟨if_pos hr, Ends.ok_iff.mpr hr⟩

theorem guarded_alike (h4 : 4 ∣ D) (hD : 0 < D) (hlt : D < 2 ^ 62) (e : Fault) :
    Alike (fun p => p.den ∣ D) (guarded D e) words where
  zero := one_dvd D
  one := one_dvd D
  add {p q} hp hq := by
    show Agrees (if _ then _ else _) (p.add q) _
    rw [if_pos ⟨hp, hq⟩]
    exact vetted_agrees e (add_of_dvd hD hlt hp hq)
  neg {p} hp := by
    show Agrees (if _ then _ else _) p.neg _
    rw [if_pos hp]
    obtain ⟨r, hr, hden⟩ := neg_of_den_lt ((Nat.le_of_dvd hD hp).trans_lt hlt)
    exact vetted_agrees e ⟨r, hr, hden ▸ hp⟩
  ofFraction n := by
    obtain ⟨r, hr, hden⟩ := ofFraction_of_pos (n := n) (d := 4) (by norm_num) (by norm_num)
    exact vetted_agrees e ⟨r, hr, Dvd.dvd.trans (by exact_mod_cast hden) h4⟩

end Arithmetic

end Phase

end ZX
