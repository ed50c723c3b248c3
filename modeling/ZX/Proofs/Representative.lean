import Mathlib
import ZX.Proofs.Denominator.Phases

/-!
# Phases are angles modulo whole turns

A phase represents every angle that differs from it by an even number of half turns. Its terms are
those that reduction leaves: the denominator is that of the angle in lowest terms, and the numerator
is the Euclidean remainder by twice the denominator, lowered by as much when it is beyond half a
turn. So there is one phase for each angle, and constructors and operations either return the phase
of the exact angle or overflow.

A fraction of two words overflows exactly when one of its reduced terms is no word, or when twice its
denominator is needed and is none. Sums and differences with a common denominator below `2 ^ 62` and
all negations are free of overflows.
-/
namespace ZX

namespace Ratio

variable {n d : ℤ} {D : ℕ}

theorem sub_divInt (s t l : ℤ) : Rat.divInt (s - t) l = Rat.divInt s l - Rat.divInt t l := by
  rw [sub_eq_add_neg, Rat.add_divInt, ← Rat.neg_divInt, sub_eq_add_neg]

theorem sub_ends (x y : ℚ) : Ends (sub x y) (· = x - y) (· = .overflow) := by
  unfold sub
  split
  · rename_i hden
    have hd : (x.den : ℤ) ≠ 0 := by exact_mod_cast x.den_nz
    refine (int64_ends _).bind fun n hn => (make_ends hd).imp fun r hr => ?_
    rw [hr, hn, sub_divInt, Rat.num_divInt_den, hden, Rat.num_divInt_den]
  · refine (commonTerms_ends x y).bind fun r hr => ?_
    obtain ⟨s, t, l⟩ := r
    obtain ⟨hl, hx, hy⟩ := hr
    refine (int64_ends _).bind fun n hn => (make_ends hl).imp fun q hq => ?_
    rw [hq, hn, sub_divInt, ← hx, ← hy]

/-- Crosswise reduction does not change a product. -/
theorem mul_ends (x y : ℚ) : Ends (mul x y) (· = x * y) (· = .overflow) := by
  unfold mul
  have hxd : (x.den : ℤ) ≠ 0 := by exact_mod_cast x.den_nz
  have hyd : (y.den : ℤ) ≠ 0 := by exact_mod_cast y.den_nz
  set p : ℤ := ((Int.gcd x.num y.den : ℕ) : ℤ) with hp
  set q : ℤ := ((Int.gcd x.den y.num : ℕ) : ℤ) with hq
  obtain ⟨b, hb⟩ : p ∣ x.num := hp ▸ Int.gcd_dvd_left _ _
  obtain ⟨b', hb'⟩ : p ∣ y.den := hp ▸ Int.gcd_dvd_right _ _
  obtain ⟨c', hc'⟩ : q ∣ x.den := hq ▸ Int.gcd_dvd_left _ _
  obtain ⟨c, hc⟩ : q ∣ y.num := hq ▸ Int.gcd_dvd_right _ _
  have hp0 : p ≠ 0 := fun h => hyd (by rw [hb', h, zero_mul])
  have hq0 : q ≠ 0 := fun h => hxd (by rw [hc', h, zero_mul])
  have hb0 : b' ≠ 0 := fun h => hyd (by rw [hb', h, mul_zero])
  have hc0 : c' ≠ 0 := fun h => hxd (by rw [hc', h, mul_zero])
  have hnum : x.num / p * (y.num / q) = b * c := by
    rw [hb, hc, Int.mul_ediv_cancel_left _ hp0, Int.mul_ediv_cancel_left _ hq0]
  have hden : (x.den : ℤ) / q * (y.den / p) = c' * b' := by
    rw [hb', hc', Int.mul_ediv_cancel_left _ hp0, Int.mul_ediv_cancel_left _ hq0]
  have hd0 : c' * b' ≠ 0 := mul_ne_zero hc0 hb0
  simp only [hnum, hden]
  refine (int64_ends _).bind fun n hn => (int64_ends _).bind fun d hd => ?_
  subst hn hd
  refine (make_ends hd0).imp fun r hr => ?_
  have hcommon : x * y = Rat.divInt (b * c * (p * q)) (c' * b' * (p * q)) := by
    rw [← Rat.num_divInt_den x, ← Rat.num_divInt_den y, Rat.divInt_mul_divInt, hb, hc, hb', hc']
    congr 1 <;> ring
  rw [hr, hcommon, Rat.divInt_mul_right (mul_ne_zero hp0 hq0)]

theorem scale_ends (x : ℚ) (k : ℤ) : Ends (scale x k) (· = x * k) (· = .overflow) := by
  unfold scale
  have hxd : (x.den : ℤ) ≠ 0 := by exact_mod_cast x.den_nz
  set q : ℤ := ((Int.gcd x.den k : ℕ) : ℤ) with hq
  obtain ⟨c', hc'⟩ : q ∣ x.den := hq ▸ Int.gcd_dvd_left _ _
  obtain ⟨c, hc⟩ : q ∣ k := hq ▸ Int.gcd_dvd_right _ _
  have hq0 : q ≠ 0 := fun h => hxd (by rw [hc', h, zero_mul])
  have hc0 : c' ≠ 0 := fun h => hxd (by rw [hc', h, mul_zero])
  have hnum : k / q = c := by rw [hc, Int.mul_ediv_cancel_left _ hq0]
  have hden : (x.den : ℤ) / q = c' := by rw [hc', Int.mul_ediv_cancel_left _ hq0]
  simp only [hnum, hden]
  refine (int64_ends _).bind fun n hn => (make_ends hc0).imp fun r hr => ?_
  have hcommon : x * k = Rat.divInt (x.num * c * q) (c' * q) := by
    have hk : ((k : ℤ) : ℚ) = Rat.divInt k 1 := by rw [Rat.divInt_one]
    conv_lhs => rw [← Rat.num_divInt_den x, hk, Rat.divInt_mul_divInt, hc, hc', mul_one]
    congr 1 <;> ring
  rw [hr, hn, hcommon, Rat.divInt_mul_right hq0]

/-- Differences over a common denominator do not overflow. -/
theorem sub_of_dvd {x y : ℚ} (hD : 0 < D) (hlt : D < 2 ^ 62) (hx : x.den ∣ D) (hy : y.den ∣ D)
    (hxnum : |x.num| ≤ x.den) (hynum : |y.num| ≤ y.den) : sub x y = .ok (x - y) := by
  suffices h : ∃ z, sub x y = .ok z by
    obtain ⟨z, hz⟩ := h
    rw [hz, (sub_ends x y).of_eq_ok hz]
  have hdiff : ∀ {s t l : ℤ}, |s| ≤ l → |t| ≤ l → l ≤ D → int64 (s - t) = .ok (s - t) := by
    intro s t l hs ht hl
    have habs := abs_sub s t
    exact int64_of_abs_lt (by omega)
  unfold sub
  by_cases hden : x.den = y.den
  · have hpos : (0 : ℤ) < x.den := by exact_mod_cast x.den_pos
    have hle : (x.den : ℤ) ≤ D := by exact_mod_cast Nat.le_of_dvd hD hx
    rw [if_pos hden, hdiff hxnum (hden ▸ hynum) hle]
    exact ⟨_, make_of_pos hpos (by omega)⟩
  · obtain ⟨s, t, l, hterms, hpos, hle, hs, ht⟩ :=
      commonTerms_of_dvd hD (by omega) hx hy hxnum hynum
    rw [if_neg hden, hterms]
    show ∃ z, (do make (← int64 (s - t)) l) = .ok z
    rw [hdiff hs ht hle]
    exact ⟨_, make_of_pos hpos (by omega)⟩

theorem int64_of_le (h : 2 ^ 63 ≤ n) : int64 n = .error .overflow := if_neg fun hn => by omega

/-- Reduction divides both terms by their gcd and gives the sign to the numerator. -/
theorem terms_divInt {g b c : ℤ} (hg : g = (Int.gcd n d : ℕ)) (hb : n = g * b) (hc : d = g * c)
    (hd0 : d ≠ 0) :
    (Rat.divInt n d).num = d.sign * b ∧ ((Rat.divInt n d).den : ℤ) = d.sign * c := by
  have hg0 : g ≠ 0 := fun h => hd0 (by rw [hc, h, zero_mul])
  constructor
  · rw [Rat.num_divInt, Int.gcd_comm, ← hg, hb, mul_left_comm, Int.mul_ediv_cancel_left _ hg0]
  · rw [Rat.den_divInt, if_neg hd0, Int.gcd_comm, Int.natCast_div, ← Int.sign_mul_self_eq_natAbs,
      ← hg, hc, mul_left_comm, Int.mul_ediv_cancel_left _ hg0]

/-- With a negative denominator both quotients by the gcd are negated. -/
theorem make_of_neg {g b c : ℤ} (hg : g = (Int.gcd n d : ℕ)) (hb : n = g * b) (hc : d = g * c)
    (hgword : g < 2 ^ 63) (hneg : d < 0) (hsimple : ¬(n = 0 ∨ n = d)) :
    make n d = do
      let _ ← int64 (-b)
      let _ ← int64 (-c)
      return Rat.divInt n d := by
  have hg0 : g ≠ 0 := fun h => hneg.ne (by rw [hc, h, zero_mul])
  have hquot : n / g = b ∧ d / g = c := by
    rw [hb, hc, Int.mul_ediv_cancel_left _ hg0, Int.mul_ediv_cancel_left _ hg0]
    exact ⟨rfl, rfl⟩
  have hgok : int64 ((Int.gcd n d : ℕ) : ℤ) = .ok g :=
    int64_eq_ok.mpr ⟨⟨by omega, by omega⟩, hg.symm⟩
  rw [make, if_neg hneg.ne, if_neg hsimple, hgok]
  show (if d < 0 then _ else _) = _
  rw [if_pos hneg, hquot.1, hquot.2]

/-- The fraction of two words exists when its reduced terms are words. They can fail to be only where
a negative denominator costs a negation. -/
theorem make_of_words (hn : -2 ^ 63 ≤ n ∧ n < 2 ^ 63) (hd : -2 ^ 63 ≤ d ∧ d < 2 ^ 63) (hd0 : d ≠ 0) :
    make n d = if (Rat.divInt n d).num < 2 ^ 63 ∧ (Rat.divInt n d).den < 2 ^ 63 then
      .ok (Rat.divInt n d) else .error .overflow := by
  by_cases hsimple : n = 0 ∨ n = d
  · have hok : make n d = .ok (Rat.divInt n d) := by
      rw [make, if_neg hd0, if_pos hsimple]
      rfl
    rw [hok, if_pos]
    rcases hsimple with rfl | rfl
    · simp
    · simp [Rat.divInt_self', hd0]
  set g : ℤ := ((Int.gcd n d : ℕ) : ℤ) with hg
  obtain ⟨b, hb⟩ : g ∣ n := hg ▸ Int.gcd_dvd_left n d
  obtain ⟨c, hc⟩ : g ∣ d := hg ▸ Int.gcd_dvd_right n d
  have hgpos : 0 < g := by
    rw [hg]
    exact_mod_cast Int.gcd_pos_of_ne_zero_right n hd0
  obtain ⟨hnum, hden⟩ := terms_divInt hg hb hc hd0
  rcases hd0.lt_or_gt with hneg | hpos
  · rw [Int.sign_eq_neg_one_of_neg hneg] at hnum hden
    have hcneg : c < 0 := neg_of_mul_neg_right (hc ▸ hneg) hgpos.le
    -- a gcd of `2 ^ 63` leaves only the two fractions that need none
    have hgword : g < 2 ^ 63 := by
      by_contra hlarge
      have hgle : g ≤ 2 ^ 63 := by nlinarith
      have hgeq : g = 2 ^ 63 := by omega
      rw [hgeq] at hb hc
      omega
    have hlow : -2 ^ 63 ≤ -b := by nlinarith
    have hwords : (Rat.divInt n d).num < 2 ^ 63 ∧ (Rat.divInt n d).den < 2 ^ 63 ↔
        -b < 2 ^ 63 ∧ -c < 2 ^ 63 := by omega
    rw [make_of_neg hg hb hc hgword hneg hsimple, if_congr hwords rfl rfl]
    by_cases hbword : -b < 2 ^ 63
    · rw [int64_eq_ok.mpr ⟨⟨hlow, hbword⟩, rfl⟩]
      by_cases hcword : -c < 2 ^ 63
      · rw [int64_eq_ok.mpr ⟨⟨by omega, hcword⟩, rfl⟩, if_pos ⟨hbword, hcword⟩]
        rfl
      · rw [int64_of_le (not_lt.mp hcword), if_neg fun h => hcword h.2]
        rfl
    · rw [int64_of_le (not_lt.mp hbword), if_neg fun h => hbword h.1]
      rfl
  · rw [Int.sign_eq_one_of_pos hpos, one_mul] at hnum hden
    have hcpos : 0 < c := pos_of_mul_pos_right (hc ▸ hpos) hgpos.le
    rw [make_of_pos hpos hd.2, if_pos]
    constructor
    · rw [hnum]
      nlinarith
    · have : c < 2 ^ 63 := by nlinarith
      omega

end Ratio

namespace Phase

variable {p q : Phase} {r s : ℚ} {n : ℤ} {d : ℕ}

/-- The numerator over `d` of the number in `(-1, 1]` that differs from `n / d` by an even integer. -/
def wrap (n : ℤ) (d : ℕ) : ℤ :=
  let m := n % (2 * d)
  if d < m then m - 2 * d else m

theorem wrap_eq {m k : ℤ} (hlow : -d < m) (hhigh : m ≤ d) (hk : n = m + 2 * d * k) : wrap n d = m := by
  rw [wrap, hk, Int.add_mul_emod_self_left]
  rcases lt_or_ge m 0 with hneg | hpos
  · have hrem : m % (2 * d) = m + 2 * d := by
      rw [← Int.add_emod_right, Int.emod_eq_of_lt (by omega) (by omega)]
    rw [hrem]
    show (if (d : ℤ) < m + 2 * d then m + 2 * d - 2 * d else m + 2 * d) = m
    rw [if_pos (by omega)]
    omega
  · have hrem : m % (2 * d) = m := Int.emod_eq_of_lt hpos (by omega)
    rw [hrem]
    exact if_neg (by omega)

/-- The phase `p` is the one of the angle of `r` half turns. Its terms have no common factor, its
denominator is positive, its value lies in `(-1, 1]`, and it differs from `r` by whole turns. -/
structure Represents (p : Phase) (r : ℚ) : Prop where
  den_pos : 0 < p.den
  coprime : p.num.natAbs.Coprime p.den
  lower : -(p.den : ℤ) < p.num
  upper : p.num ≤ p.den
  even : ∃ k : ℤ, (p.num : ℚ) / p.den = r + 2 * k
  den_eq : p.den = r.den
  num_eq : p.num = wrap r.num r.den

theorem num_div_den (p : Phase) : (p.num : ℚ) / p.den = p.halfTurns := Rat.num_div_den _

theorem SameAngle.represents (h : p.SameAngle r) : p.Represents r := by
  obtain ⟨k, hk⟩ := h
  have hpos : (0 : ℚ) < p.den := by exact_mod_cast p.halfTurns.den_pos
  have hlow : -(p.den : ℤ) < p.num := by
    have hlow := p.lower
    rw [← p.num_div_den, lt_div_iff₀ hpos, neg_one_mul] at hlow
    exact_mod_cast hlow
  have hhigh : p.num ≤ p.den := by
    have hhigh := p.upper
    rw [← p.num_div_den, div_le_one hpos] at hhigh
    exact_mod_cast hhigh
  have hden : p.den = r.den := by
    have hshift : p.halfTurns = r + ((2 * k : ℤ) : ℚ) := by
      rw [hk]
      push_cast
      rfl
    rw [den, hshift, Rat.add_intCast_den]
  refine ⟨p.halfTurns.den_pos, p.halfTurns.reduced, hlow, hhigh, ⟨k, p.num_div_den.trans hk⟩, hden, ?_⟩
  have hnum : r.num = p.num + 2 * r.den * -k := by
    have hr : (r.den : ℚ) ≠ 0 := by exact_mod_cast r.den_nz
    have hvalue : (p.num : ℚ) / r.den = r.num / r.den + 2 * k := by
      rw [← hden, p.num_div_den, hk, hden, Rat.num_div_den]
    field_simp at hvalue
    have hvalue' : p.num = r.num + r.den * 2 * k := by exact_mod_cast hvalue
    linear_combination -hvalue'
  rw [hden] at hlow hhigh
  exact (wrap_eq hlow hhigh hnum).symm

/-- There is one phase for each angle: two numbers of `(-1, 1]` are less than a turn apart. -/
theorem Represents.eq_iff (hp : p.Represents r) (hq : q.Represents s) :
    p = q ↔ ∃ k : ℤ, r - s = 2 * k := by
  obtain ⟨j, hj⟩ := hp.even
  obtain ⟨k, hk⟩ := hq.even
  rw [num_div_den] at hj hk
  constructor
  · rintro rfl
    exact ⟨k - j, by push_cast; linarith⟩
  · rintro ⟨m, hm⟩
    have hdiff : p.halfTurns - q.halfTurns = 2 * ((m + j - k : ℤ) : ℚ) := by
      push_cast
      linarith
    have hzero : m + j - k = 0 := by
      have hlow : (-1 : ℚ) < ((m + j - k : ℤ) : ℚ) := by linarith [p.lower, q.upper]
      have hhigh : ((m + j - k : ℤ) : ℚ) < 1 := by linarith [p.upper, q.lower]
      have hlow' : -1 < m + j - k := by exact_mod_cast hlow
      have hhigh' : m + j - k < 1 := by exact_mod_cast hhigh
      omega
    rw [hzero] at hdiff
    have hsame : p.halfTurns = q.halfTurns := by
      push_cast at hdiff
      linarith
    cases p
    cases q
    congr

/-! ## Constructors -/

theorem ofRat_represents (r : ℚ) : Ends (ofRat r) (·.Represents r) (· = .overflow) :=
  (ofRat_ends r).imp fun _ => SameAngle.represents

/-- The terms are words, and so is twice the denominator of a number that has to be reduced. -/
def Storable (r : ℚ) : Prop :=
  r.num < 2 ^ 63 ∧ r.den < 2 ^ 63 ∧ (-1 < r ∧ r ≤ 1 ∨ 2 * r.den < 2 ^ 63)

instance (r : ℚ) : Decidable (Storable r) :=
  inferInstanceAs (Decidable (_ ∧ _ ∧ (_ ∧ _ ∨ _)))

/-- A number whose denominator is a word. -/
theorem ofRat_eq (hden : r.den < 2 ^ 63) :
    if -1 < r ∧ r ≤ 1 ∨ 2 * r.den < 2 ^ 63 then ∃ p, ofRat r = .ok p ∧ p.Represents r
    else ofRat r = .error .overflow := by
  have hresult : ∀ {p}, ofRat r = .ok p → ∃ p, ofRat r = .ok p ∧ p.Represents r := fun h =>
    ⟨_, h, (ofRat_represents r).of_eq_ok h⟩
  by_cases hrange : -1 < r ∧ r ≤ 1
  · rw [if_pos (.inl hrange)]
    exact hresult (by rw [ofRat, dif_pos hrange, store, dif_pos hden])
  · by_cases hturn : 2 * r.den < 2 ^ 63
    · rw [if_pos (.inr hturn)]
      obtain ⟨p, hp, -⟩ := ofRat_of_den_lt (r := r) (by omega)
      exact hresult hp
    · rw [if_neg (by tauto), ofRat, dif_neg hrange, Ratio.int64_of_le (by omega)]
      rfl

/-- An integer is at most half a turn away from a multiple of two half turns, whatever its size. -/
theorem ofInt_represents (n : ℤ) : ∃ p, ofInt n = .ok p ∧ p.Represents n := by
  obtain ⟨p, hp, -⟩ := ofRat_of_den_lt (r := (n : ℚ)) (by rw [Rat.den_intCast]; norm_num)
  exact ⟨p, hp, (ofRat_represents _).of_eq_ok hp⟩

theorem ofFraction_represents {n d : ℤ} (hn : -2 ^ 63 ≤ n ∧ n < 2 ^ 63)
    (hd : -2 ^ 63 ≤ d ∧ d < 2 ^ 63) (hd0 : d ≠ 0) :
    if Storable (n / d) then ∃ p, ofFraction n d = .ok p ∧ p.Represents (n / d)
    else ofFraction n d = .error .overflow := by
  have hmake := Ratio.make_of_words hn hd hd0
  rw [Rat.divInt_eq_div] at hmake
  by_cases hterms : (n / d : ℚ).num < 2 ^ 63 ∧ (n / d : ℚ).den < 2 ^ 63
  · have hrun : ofFraction n d = ofRat (n / d) := by
      rw [ofFraction, hmake, if_pos hterms]
      rfl
    rw [hrun]
    simpa only [Storable, hterms, true_and] using ofRat_eq hterms.2
  · rw [if_neg fun h => hterms ⟨h.1, h.2.1⟩, ofFraction, hmake, if_neg hterms]
    rfl

/-! ## Operations -/

theorem add_represents (p q : Phase) :
    Ends (p.add q) (·.Represents (p.halfTurns + q.halfTurns)) (· = .overflow) :=
  (Ratio.add_ends _ _).bind fun r hr => hr ▸ ofRat_represents r

theorem sub_represents (p q : Phase) :
    Ends (p.sub q) (·.Represents (p.halfTurns - q.halfTurns)) (· = .overflow) :=
  (Ratio.sub_ends _ _).bind fun r hr => hr ▸ ofRat_represents r

theorem mul_represents (p q : Phase) :
    Ends (p.mul q) (·.Represents (p.halfTurns * q.halfTurns)) (· = .overflow) :=
  (Ratio.mul_ends _ _).bind fun r hr => hr ▸ ofRat_represents r

theorem scale_represents (p : Phase) (k : ℤ) :
    Ends (p.scale k) (·.Represents (p.halfTurns * k)) (· = .overflow) :=
  (Ratio.scale_ends _ k).bind fun r hr => hr ▸ ofRat_represents r

theorem neg_represents (p : Phase) : ∃ r, p.neg = .ok r ∧ r.Represents (-p.halfTurns) := by
  have hnum : |-p.halfTurns.num| < 2 ^ 63 := by
    rw [abs_neg]
    exact p.abs_num_le.trans_lt (by exact_mod_cast p.fits)
  have hrun : p.neg = ofRat (-p.halfTurns) := by
    rw [neg, Ratio.neg, Ratio.int64_of_abs_lt hnum]
    rfl
  have hden : (-p.halfTurns).den < 2 ^ 63 := by
    rw [Rat.neg_den]
    exact p.fits
  -- only half a turn leaves the range, and its denominator is 1
  have hturn : -1 < -p.halfTurns ∧ -p.halfTurns ≤ 1 ∨ 2 * (-p.halfTurns).den < 2 ^ 63 := by
    rcases p.upper.lt_or_eq with hlt | hone
    · exact .inl ⟨by linarith, by linarith [p.lower]⟩
    · right
      rw [hone]
      norm_num
  have h := ofRat_eq hden
  rwa [if_pos hturn, ← hrun] at h

theorem sub_of_dvd {D : ℕ} (hD : 0 < D) (hlt : D < 2 ^ 62) (hp : p.den ∣ D) (hq : q.den ∣ D) :
    ∃ r, p.sub q = .ok r ∧ r.den ∣ D := by
  have hdiff : (p.halfTurns - q.halfTurns).den ∣ D :=
    (Rat.sub_den_dvd_lcm _ _).trans (Nat.lcm_dvd hp hq)
  obtain ⟨r, hr, hden⟩ := ofRat_of_den_lt ((Nat.le_of_dvd hD hdiff).trans_lt hlt)
  refine ⟨r, ?_, hden ▸ hdiff⟩
  rw [sub, Ratio.sub_of_dvd hD hlt hp hq p.abs_num_le q.abs_num_le]
  exact hr

/-- Arithmetic of phases is exact arithmetic modulo whole turns. Every result of a constructor or of
an operation is the phase of the exact angle, and phases are equal exactly when their angles differ
by whole turns. Integers and negations never overflow, fractions exactly where they are not storable,
and sums and differences not where the least common denominator is below `2 ^ 62`. -/
theorem arithmetic_exact :
    (∀ n : ℤ, ∃ p, ofInt n = .ok p ∧ p.Represents n) ∧
    (∀ n d : ℤ, (-2 ^ 63 ≤ n ∧ n < 2 ^ 63) → (-2 ^ 63 ≤ d ∧ d < 2 ^ 63) → d ≠ 0 →
      if Storable (n / d) then ∃ p, ofFraction n d = .ok p ∧ p.Represents (n / d)
      else ofFraction n d = .error .overflow) ∧
    (∀ p q r s, Represents p r → Represents q s → (p = q ↔ ∃ k : ℤ, r - s = 2 * k)) ∧
    (∀ p q : Phase, p.den.lcm q.den < 2 ^ 62 →
      (∃ r, p.add q = .ok r ∧ r.Represents (p.halfTurns + q.halfTurns) ∧ r.den ∣ p.den.lcm q.den) ∧
      ∃ r, p.sub q = .ok r ∧ r.Represents (p.halfTurns - q.halfTurns) ∧ r.den ∣ p.den.lcm q.den) ∧
    (∀ p : Phase, ∃ r, p.neg = .ok r ∧ r.Represents (-p.halfTurns)) ∧
    ∀ p q : Phase,
      Ends (p.add q) (·.Represents (p.halfTurns + q.halfTurns)) (· = .overflow) ∧
      Ends (p.sub q) (·.Represents (p.halfTurns - q.halfTurns)) (· = .overflow) ∧
      Ends (p.mul q) (·.Represents (p.halfTurns * q.halfTurns)) (· = .overflow) ∧
      ∀ k : ℤ, Ends (p.scale k) (·.Represents (p.halfTurns * k)) (· = .overflow) := by
  refine ⟨ofInt_represents, fun n d => ofFraction_represents, fun p q r s => Represents.eq_iff,
    fun p q hlt => ?_, neg_represents, fun p q => ⟨add_represents p q, sub_represents p q,
      mul_represents p q, scale_represents p⟩⟩
  have hpos : 0 < p.den.lcm q.den := Nat.lcm_pos p.halfTurns.den_pos q.halfTurns.den_pos
  obtain ⟨r, hr, hrden⟩ := add_of_dvd hpos hlt (Nat.dvd_lcm_left _ _) (Nat.dvd_lcm_right _ _)
  obtain ⟨t, ht, htden⟩ := sub_of_dvd hpos hlt (Nat.dvd_lcm_left _ _) (Nat.dvd_lcm_right _ _)
  exact ⟨⟨r, hr, (add_represents p q).of_eq_ok hr, hrden⟩,
    ⟨t, ht, (sub_represents p q).of_eq_ok ht, htden⟩⟩

/-- Just below half a turn. -/
def brink : Phase :=
  ⟨mkRat (2 ^ 61 - 2) (2 ^ 61 - 1), by decide +kernel, by decide +kernel, by decide +kernel⟩

/-- A sum that wraps around with almost the largest denominator that is safe, a fraction at the
excluded end of the range, and one whose numerator has no opposite. -/
theorem arithmetic_exact_brink :
    brink.den.lcm quarter.den = 2 ^ 62 - 2 ∧
    (∃ r, brink.add quarter = .ok r ∧ r.num = -(2 ^ 61 + 1) ∧ r.den = 2 ^ 62 - 2) ∧
    (∃ p, ofFraction 7 (-7) = .ok p ∧ p.num = 1 ∧ p.den = 1) ∧
    ofFraction (-2 ^ 63) (-1) = .error .overflow := by
  obtain ⟨-, hfraction, -, hsum, -⟩ := arithmetic_exact
  obtain ⟨⟨r, hr, hrep, -⟩, -⟩ := hsum brink quarter (by decide +kernel)
  refine ⟨by decide +kernel, ⟨r, hr, hrep.num_eq.trans (by decide +kernel),
    hrep.den_eq.trans (by decide +kernel)⟩, ?_, ?_⟩
  · have h := hfraction 7 (-7) (by decide) (by decide) (by decide)
    rw [if_pos (by decide +kernel)] at h
    obtain ⟨p, hp, hrep⟩ := h
    exact ⟨p, hp, hrep.num_eq.trans (by decide +kernel), hrep.den_eq.trans (by decide +kernel)⟩
  · have h := hfraction (-2 ^ 63) (-1) (by decide) (by decide) (by decide)
    rwa [if_neg (by decide +kernel)] at h

end Phase

end ZX
