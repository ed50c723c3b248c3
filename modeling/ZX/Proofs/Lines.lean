import Mathlib
import ZX.Decimal.Shortest

/-!
# Qubit lines as doubles

A natural number below `2^53` is a double exactly, and its order key grows with it. Two doubles that
compare equal have the same key, unless they are zeros of different sign. So a coordinate that
compares equal to the number of a qubit lies strictly between the coordinates of the qubits below and
above it in the order of the keys.

The format is computed by hand: a number `m * 2^e` with `2^52 ≤ m < 2^53` survives rounding, packing
and unpacking.
-/
namespace ZX.Decimal

open Float.Model Float.Model.UnpackedFloat

/-! ## Rounding and packing normal numbers -/

theorem repeat_shiftRightOne (m j k : ℕ) :
    k.repeat ExtendedMantissa.shiftRightOne ⟨m * 2 ^ (j + k), false, false⟩ =
      ⟨m * 2 ^ j, false, false⟩ := by
  induction k generalizing j with
  | zero => rfl
  | succ k ih =>
      rw [Nat.repeat, show j + (k + 1) = (j + 1) + k by omega, ih (j + 1), ExtendedMantissa.shiftRightOne]
      simp only [pow_succ, ← mul_assoc, Nat.mul_div_cancel _ (by decide : 0 < 2), Nat.mul_mod_left, Bool.or_self]
      rfl

theorem log2_mul_two_pow {m k : ℕ} (hlow : 2 ^ 52 ≤ m) (hhigh : m < 2 ^ 53) :
    (m * 2 ^ k).log2 = 52 + k := by
  have hpos : 0 < 2 ^ k := Nat.two_pow_pos k
  rw [Nat.log2_eq_iff (by positivity)]
  constructor
  · rw [pow_add]
    exact Nat.mul_le_mul_right _ hlow
  · rw [show 52 + k + 1 = 53 + k by omega, pow_add]
    exact Nat.mul_lt_mul_of_pos_right hhigh hpos

theorem shiftToTargetExponent_eq {m k : ℕ} {e : ℤ} (hlow : 2 ^ 52 ≤ m) (hhigh : m < 2 ^ 53)
    (he : -1074 ≤ e) :
    shiftToTargetExponent .binary64 (m * 2 ^ k) (e - k) .exact = (⟨m, false, false⟩, e) := by
  have htarget : Format.binary64.targetExponent (totalExponent (m * 2 ^ k) (e - k)) = e := by
    rw [totalExponent, log2_mul_two_pow hlow hhigh, Format.targetExponent]
    simp only [Format.mantissaBits, Format.minExponent]
    push_cast
    omega
  have hamount : (e - (e - k)).toNat = k := by omega
  have hshift := repeat_shiftRightOne m 0 k
  rw [Nat.zero_add, pow_zero, mul_one] at hshift
  rw [shiftToTargetExponent, htarget, shiftToExponent, hamount]
  refine Prod.ext hshift ?_
  show e - k + k = e
  omega

theorem roundWithAccuracy_eq (s : Sign) {m k : ℕ} {e : ℤ} (hlow : 2 ^ 52 ≤ m) (hhigh : m < 2 ^ 53)
    (he : -1074 ≤ e) :
    roundWithAccuracy .binary64 s (m * 2 ^ k) (e - k) .exact =
      .finite s m e (Nat.lt_of_lt_of_le (Nat.two_pow_pos 52) hlow) := by
  have hagain := shiftToTargetExponent_eq (k := 0) hlow hhigh he
  rw [pow_zero, mul_one, Nat.cast_zero, sub_zero] at hagain
  have hmantissa : (ExtendedMantissa.mk m false false).roundedMantissa = m := rfl
  have hne : m ≠ 0 := by omega
  simp only [roundWithAccuracy, shiftToTargetExponent_eq hlow hhigh he, hmantissa, hagain,
    dif_neg hne]

/-! ## Bit fields -/

theorem toNat_packComponents (E : BitVec 11) (M : BitVec 52) :
    (packComponents .binary64 .positive E M).toNat = E.toNat * 2 ^ 52 + M.toNat := by
  have hM := M.isLt
  show (0#1 ++ E ++ M).toNat = _
  rw [BitVec.toNat_append, ← Nat.shiftLeft_add_eq_or_of_lt hM, BitVec.toNat_append,
    ← Nat.shiftLeft_add_eq_or_of_lt E.isLt, Nat.shiftLeft_eq, BitVec.toNat_ofNat]
  simp

theorem toNat_unpackSign (b : BitVec 64) :
    (@unpackSign .binary64 b).toNat = b.toNat / 2 ^ 63 := by
  have hb := b.isLt
  simp only [unpackSign, BitVec.toNat_cast, BitVec.extractLsb_toNat, Nat.shiftRight_eq_div_pow]
  omega

theorem toNat_unpackExponent (b : BitVec 64) :
    (@unpackExponent .binary64 b).toNat = b.toNat / 2 ^ 52 % 2 ^ 11 := by
  simp only [unpackExponent, BitVec.toNat_cast, BitVec.extractLsb_toNat, Nat.shiftRight_eq_div_pow]

theorem toNat_unpackMantissa (b : BitVec 64) :
    (@unpackMantissa .binary64 b).toNat = b.toNat % 2 ^ 52 := by
  simp only [unpackMantissa, BitVec.toNat_cast, BitVec.extractLsb_toNat, Nat.shiftRight_eq_div_pow]
  omega

theorem pack_eq {m : ℕ} {e : ℤ} (hpos : 0 < m) (hlow : 2 ^ 52 ≤ m) (hhigh : m < 2 ^ 53) (he : -1074 ≤ e)
    (he' : e ≤ 971) :
    UnpackedFloat.pack .binary64 (.finite .positive m e hpos) =
      packComponents .binary64 .positive (BitVec.ofNat 11 (e + 1075).toNat) (BitVec.ofNat 52 m) := by
  have hlog := log2_mul_two_pow (k := 0) hlow hhigh
  rw [pow_zero, mul_one] at hlog
  have hbias : (e + (Format.binary64.exponentBias : ℤ) + (Format.binary64.mantissaBitsWithoutImplicit : ℤ)).toNat =
      (e + 1075).toNat := by
    simp only [Format.exponentBias]
    push_cast
    omega
  rw [UnpackedFloat.pack, hlog, hbias]
  simp only [Format.mantissaBits]
  rw [if_neg (by omega), if_pos (by norm_num)]

/-- The implicit leading bit of a normal number. -/
theorem toNat_one_append (M : BitVec 52) : (1#1 ++ M).toNat = 2 ^ 52 + M.toNat := by
  rw [BitVec.toNat_append, ← Nat.shiftLeft_add_eq_or_of_lt M.isLt, BitVec.toNat_ofNat,
    Nat.shiftLeft_eq]
  omega

theorem unpackSign_packComponents (E : BitVec 11) (M : BitVec 52) :
    @unpackSign .binary64 (packComponents .binary64 .positive E M) = 0#1 := by
  have hE := E.isLt
  have hM := M.isLt
  apply BitVec.eq_of_toNat_eq
  rw [toNat_unpackSign, toNat_packComponents, BitVec.toNat_ofNat]
  omega

theorem unpack_pack {m : ℕ} {e : ℤ} (hpos : 0 < m) (hlow : 2 ^ 52 ≤ m) (hhigh : m < 2 ^ 53)
    (he : -1074 ≤ e) (he' : e ≤ 971) :
    UnpackedFloat.unpack .binary64 (UnpackedFloat.pack .binary64 (.finite .positive m e hpos)) =
      .finite .positive m e hpos := by
  have hE : (BitVec.ofNat 11 (e + 1075).toNat).toNat = (e + 1075).toNat := by
    rw [BitVec.toNat_ofNat, Nat.mod_eq_of_lt (by omega)]
  have hfull : BitVec.ofNat 11 (e + 1075).toNat ≠ -1#11 := by
    intro h
    have hnat := congrArg BitVec.toNat h
    rw [hE, show (-1#11).toNat = 2047 from rfl] at hnat
    omega
  have hnone : BitVec.ofNat 11 (e + 1075).toNat ≠ 0#11 := by
    intro h
    have hnat := congrArg BitVec.toNat h
    rw [hE, BitVec.toNat_ofNat, Nat.zero_mod] at hnat
    omega
  have hM : (1#1 ++ BitVec.ofNat 52 m).toNat = m := by
    rw [toNat_one_append, BitVec.toNat_ofNat]
    omega
  rw [pack_eq hpos hlow hhigh he he', UnpackedFloat.unpack]
  simp only [unpackMantissa_packComponents, unpackExponent_packComponents, unpackSign_packComponents]
  rw [if_neg hfull, if_neg hnone, UnpackedFloat.finite.injEq]
  refine ⟨rfl, hM, ?_⟩
  rw [hE]
  simp only [Format.exponentBias]
  push_cast
  omega

/-! ## Natural numbers -/

theorem log2_le {n : ℕ} (hn : n < 2 ^ 53) : n.log2 ≤ 52 := by
  by_cases hzero : n = 0
  · simp [hzero]
  · have hlt := (Nat.log2_lt hzero).mpr hn
    omega

theorem ofNat_unpacked {n : ℕ} (hpos : 0 < n) (hn : n < 2 ^ 53) :
    ∃ h, UnpackedFloat.ofNat .binary64 n =
      .finite .positive (n * 2 ^ (52 - n.log2)) (-((52 - n.log2 : ℕ) : ℤ)) h ∧
      2 ^ 52 ≤ n * 2 ^ (52 - n.log2) ∧ n * 2 ^ (52 - n.log2) < 2 ^ 53 := by
  have hself := Nat.log2_self_le hpos.ne'
  have hlt := Nat.lt_log2_self (n := n)
  have hlog := log2_le hn
  have hlow : 2 ^ 52 ≤ n * 2 ^ (52 - n.log2) := by
    calc 2 ^ 52 = 2 ^ n.log2 * 2 ^ (52 - n.log2) := by rw [← pow_add]; congr 1; omega
      _ ≤ n * 2 ^ (52 - n.log2) := Nat.mul_le_mul_right _ hself
  have hhigh : n * 2 ^ (52 - n.log2) < 2 ^ 53 := by
    calc n * 2 ^ (52 - n.log2) < 2 ^ (n.log2 + 1) * 2 ^ (52 - n.log2) :=
          Nat.mul_lt_mul_of_pos_right hlt (Nat.two_pow_pos _)
      _ = 2 ^ 53 := by rw [← pow_add]; congr 1; omega
  refine ⟨by positivity, ?_, hlow, hhigh⟩
  have hround := roundWithAccuracy_eq .positive (k := 0) (e := -((52 - n.log2 : ℕ) : ℤ)) hlow hhigh
    (by omega)
  rw [pow_zero, mul_one, Nat.cast_zero, sub_zero] at hround
  have htarget : Format.binary64.targetExponent (totalExponent n 0) = -((52 - n.log2 : ℕ) : ℤ) := by
    rw [totalExponent, Format.targetExponent]
    simp only [Format.mantissaBits, Format.minExponent]
    push_cast
    omega
  have hcmp : compare (n : ℤ) 0 = .gt := by
    rw [compare_gt_iff_gt]
    omega
  have hamount : (0 - -((52 - n.log2 : ℕ) : ℤ)).toNat = 52 - n.log2 := by omega
  rw [UnpackedFloat.ofNat, UnpackedFloat.ofInt, UnpackedFloat.normalize, hcmp]
  show UnpackedFloat.round .binary64 .positive n 0 = _
  rw [UnpackedFloat.round, htarget]
  simp only [decreaseExponent, hamount, Nat.shiftLeft_eq]
  rw [zero_sub]
  exact hround

/-- The bit pattern of a natural number below `2^53`. -/
def naturalBits (n : ℕ) : ℕ :=
  if n = 0 then 0 else (1022 + n.log2) * 2 ^ 52 + n * 2 ^ (52 - n.log2)

theorem toBits_ofNat {n : ℕ} (hn : n < 2 ^ 53) : (Float.ofNat n).toBits.toNat = naturalBits n := by
  have hsplit : Float.ofNat n = n.toUInt64.toFloat * Float.ofBits 0x3FF0000000000000 := by
    show Float.ofScientific n false 0 = _
    unfold Float.ofScientific
    rw [dif_pos ⟨hn, by omega⟩]
    rfl
  have hone : (Float.ofBits 0x3FF0000000000000).toModel.unpack =
      .finite .positive (2 ^ 52) (-52) (by decide) := by rfl
  have hword : n.toUInt64.toNat = n := by
    simp
    omega
  by_cases hzero : n = 0
  · subst hzero
    rw [hsplit]
    rfl
  · obtain ⟨hpos, hunpacked, hlow, hhigh⟩ := ofNat_unpacked (Nat.pos_of_ne_zero hzero) hn
    have hlog := log2_le hn
    have hfirst : n.toUInt64.toFloat.toModel.unpack =
        .finite .positive (n * 2 ^ (52 - n.log2)) (-((52 - n.log2 : ℕ) : ℤ)) hpos := by
      show UnpackedFloat.unpack .binary64
        (UnpackedFloat.pack .binary64 (UnpackedFloat.ofNat .binary64 n.toUInt64.toNat)) = _
      rw [hword, hunpacked, unpack_pack hpos hlow hhigh (by omega) (by omega)]
    have hround := roundWithAccuracy_eq .positive (k := 52) (e := -((52 - n.log2 : ℕ) : ℤ)) hlow hhigh
      (by omega)
    have hbits : (Float.ofNat n).toBits.toNat = (UnpackedFloat.pack .binary64
        (UnpackedFloat.mul .binary64 n.toUInt64.toFloat.toModel.unpack
          (Float.ofBits 0x3FF0000000000000).toModel.unpack)).toNat := by
      rw [hsplit]
      rfl
    have hmul : UnpackedFloat.mul .binary64 n.toUInt64.toFloat.toModel.unpack
        (Float.ofBits 0x3FF0000000000000).toModel.unpack =
        .finite .positive (n * 2 ^ (52 - n.log2)) (-((52 - n.log2 : ℕ) : ℤ)) hpos := by
      rw [hfirst, hone]
      exact hround
    rw [hbits, hmul, pack_eq hpos hlow hhigh (by omega) (by omega), toNat_packComponents,
      BitVec.toNat_ofNat, BitVec.toNat_ofNat, naturalBits, if_neg hzero]
    generalize n * 2 ^ (52 - n.log2) = m at *
    omega

theorem naturalBits_lt {p q : ℕ} (hpq : p < q) (hq : q < 2 ^ 53) : naturalBits p < naturalBits q := by
  have hqpos : q ≠ 0 := by omega
  obtain ⟨_, _, hqlow, hqhigh⟩ := ofNat_unpacked (Nat.pos_of_ne_zero hqpos) hq
  rw [naturalBits, naturalBits, if_neg hqpos]
  by_cases hp : p = 0
  · rw [if_pos hp]
    omega
  · obtain ⟨_, _, hplow, hphigh⟩ := ofNat_unpacked (Nat.pos_of_ne_zero hp) (hpq.trans hq)
    rw [if_neg hp]
    by_cases hlog : p.log2 = q.log2
    · rw [hlog]
      have hmul : p * 2 ^ (52 - q.log2) < q * 2 ^ (52 - q.log2) :=
        Nat.mul_lt_mul_of_pos_right hpq (Nat.two_pow_pos _)
      omega
    · have hlt : p.log2 < q.log2 := by
        have hle : p.log2 ≤ q.log2 := by
          rw [Nat.le_log2 hqpos]
          exact (Nat.log2_self_le hp).trans hpq.le
        omega
      generalize p * 2 ^ (52 - p.log2) = a at *
      generalize q * 2 ^ (52 - q.log2) = b at *
      omega

/-! ## Equality of doubles -/

def signBits : Sign → ℕ
  | .negative => 2 ^ 63
  | .positive => 0

/-- The bit pattern of an unpacked number. -/
def unpackedBits : UnpackedFloat → ℕ
  | .infinity s => signBits s + 2047 * 2 ^ 52
  | .notANumber => 0
  | .zero s => signBits s
  | .finite s m e _ =>
      signBits s + if m < 2 ^ 52 then m else (e + 1074).toNat * 2 ^ 52 + m

theorem signBits_ofBitVec (b : BitVec 1) : signBits (Sign.ofBitVec b) = b.toNat * 2 ^ 63 := by
  have hb := b.isLt
  unfold Sign.ofBitVec
  split
  case isTrue h =>
    subst h
    rfl
  case isFalse h =>
    have hne : b.toNat ≠ 0 := fun h0 => h (BitVec.eq_of_toNat_eq h0)
    have hone : b.toNat = 1 := by omega
    rw [hone]
    rfl

theorem toNat_eq_unpackedBits {b : BitVec 64} (h : UnpackedFloat.unpack .binary64 b ≠ .notANumber) :
    b.toNat = unpackedBits (UnpackedFloat.unpack .binary64 b) := by
  have hs := toNat_unpackSign b
  have hE := toNat_unpackExponent b
  have hM := toNat_unpackMantissa b
  have hsign := signBits_ofBitVec (@unpackSign .binary64 b)
  rw [hs] at hsign
  unfold UnpackedFloat.unpack at h ⊢
  dsimp only at h ⊢
  split at h
  case isTrue hfull =>
    rw [if_pos hfull]
    split at h
    case isTrue hzero =>
      rw [if_pos hzero, unpackedBits, hsign]
      rw [hfull] at hE
      rw [hzero] at hM
      rw [show (-1#11).toNat = 2047 from rfl] at hE
      rw [show (0#52).toNat = 0 from rfl] at hM
      omega
    case isFalse => exact absurd rfl h
  case isFalse hfull =>
    rw [if_neg hfull]
    have hM52 : @BitVec.toNat 52 (@unpackMantissa .binary64 b) < 2 ^ 52 := BitVec.isLt _
    split
    case isTrue hnone =>
      rw [hnone] at hE
      rw [show (0#11).toNat = 0 from rfl] at hE
      split
      case isTrue hzero =>
        rw [hzero] at hM
        rw [show (0#52).toNat = 0 from rfl] at hM
        rw [unpackedBits, hsign]
        omega
      case isFalse =>
        rw [unpackedBits, hsign, if_pos hM52, hM]
        omega
    case isFalse hnone =>
      have hne : b.toNat / 2 ^ 52 % 2 ^ 11 ≠ 0 := by
        rw [← hE]
        exact fun h0 => hnone (BitVec.eq_of_toNat_eq h0)
      have hfraction : (1#1 ++ @unpackMantissa .binary64 b).toNat = 2 ^ 52 + b.toNat % 2 ^ 52 := by
        rw [← hM]
        exact toNat_one_append _
      rw [unpackedBits, hsign, hfraction, hE, if_neg (by omega)]
      simp only [Format.exponentBias]
      push_cast
      omega

theorem compare_eq_some_eq {a b : UnpackedFloat} (h : a.compare b = some .eq) :
    (a = b ∧ a ≠ .notANumber) ∨ ∃ s s', a = .zero s ∧ b = .zero s' := by
  cases a with
  | notANumber => cases h
  | infinity s =>
      cases b with
      | infinity s' => cases s <;> cases s' <;> simp_all [UnpackedFloat.compare, compare]
      | notANumber => cases s <;> cases h
      | zero s' => cases s <;> cases h
      | finite s' m' e' h' => cases s <;> cases h
  | zero s =>
      cases b with
      | infinity s' => cases s' <;> cases h
      | notANumber => cases h
      | zero s' => exact .inr ⟨s, s', rfl, rfl⟩
      | finite s' m' e' h' => cases s' <;> cases h
  | finite s m e hm =>
      cases b with
      | infinity s' => cases s <;> cases s' <;> cases h
      | notANumber => cases s <;> cases h
      | zero s' => cases s <;> cases h
      | finite s' m' e' hm' =>
          have hsame : s = s' ∧ (compare e e').then (compare m m') = .eq := by
            cases s <;> cases s' <;> simp_all [UnpackedFloat.compare]
          obtain ⟨hs, hcmp⟩ := hsame
          rw [Ordering.then_eq_eq, compare_eq_iff_eq, compare_eq_iff_eq] at hcmp
          obtain ⟨he, hm⟩ := hcmp
          subst hs he hm
          exact .inl ⟨rfl, by simp⟩

/-- A zero of either sign. -/
def IsZero (x : Float) : Prop := x.toBits.toNat = 0 ∨ x.toBits.toNat = 2 ^ 63

/-- Equal doubles have the same bits, unless both are zero. -/
theorem toBits_of_beq {x y : Float} (h : (x == y) = true) :
    x.toBits.toNat = y.toBits.toNat ∨ IsZero x ∧ IsZero y := by
  have hcompare : x.toModel.unpack.compare y.toModel.unpack = some .eq := by
    have hbeq : (x.toModel.unpack.compare y.toModel.unpack == some .eq) = true := h
    exact eq_of_beq hbeq
  have hzero : ∀ (z : Float) (s : Sign), z.toModel.unpack = .zero s → IsZero z := by
    intro z s hz
    have hbits := toNat_eq_unpackedBits (b := z.toBits.toBitVec) (by
      show z.toModel.unpack ≠ _
      rw [hz]
      simp)
    have hunpack : UnpackedFloat.unpack .binary64 z.toBits.toBitVec = .zero s := hz
    rw [hunpack] at hbits
    cases s with
    | negative => exact .inr hbits
    | positive => exact .inl hbits
  obtain ⟨heq, hnan⟩ | ⟨s, s', hx, hy⟩ := compare_eq_some_eq hcompare
  · left
    have hnan' : y.toModel.unpack ≠ .notANumber := heq ▸ hnan
    have hxbits := toNat_eq_unpackedBits (b := x.toBits.toBitVec) hnan
    have hybits := toNat_eq_unpackedBits (b := y.toBits.toBitVec) hnan'
    have hunpack : UnpackedFloat.unpack .binary64 x.toBits.toBitVec =
        UnpackedFloat.unpack .binary64 y.toBits.toBitVec := heq
    rw [hunpack, ← hybits] at hxbits
    exact hxbits
  · exact .inr ⟨hzero x s hx, hzero y s' hy⟩

/-! ## Qubit lines -/

/-- A coordinate on the line of a qubit: the double for the number of the qubit. On the first line
this is a zero, and either sign will do. -/
def OnLine (q : ℕ) (x : Float) : Prop :=
  x.toBits.toNat = (Float.ofNat q).toBits.toNat ∨ IsZero x ∧ IsZero (Float.ofNat q)

theorem orderKey_of_toNat {x : Float} {n : ℕ} (h : x.toBits.toNat = n) (hn : n < 2 ^ 63) :
    orderKey x = n := by
  rw [orderKey, h, if_pos hn]

theorem naturalBits_lt_two_pow {n : ℕ} (hn : n < 2 ^ 53) : naturalBits n < 2 ^ 62 + 2 ^ 58 := by
  by_cases hzero : n = 0
  · simp [naturalBits, hzero]
  · obtain ⟨_, _, hlow, hhigh⟩ := ofNat_unpacked (Nat.pos_of_ne_zero hzero) hn
    have hlog := log2_le hn
    rw [naturalBits, if_neg hzero]
    generalize n * 2 ^ (52 - n.log2) = m at *
    omega

theorem onLine_ofNat (q : ℕ) : OnLine q (Float.ofNat q) := .inl rfl

theorem OnLine.of_beq {q : ℕ} {x y : Float} (h : OnLine q x) (hxy : (x == y) = true) :
    OnLine q y := by
  obtain hsame | ⟨hx, hy⟩ := toBits_of_beq hxy
  · unfold OnLine IsZero at *
    rwa [← hsame]
  · refine .inr ⟨hy, ?_⟩
    obtain hbits | ⟨-, hline⟩ := h
    · unfold IsZero
      rwa [← hbits]
    · exact hline

/-- Doubles tell numbers below `2 ^ 53` apart, so there the order of coordinates shows the line. -/
theorem OnLine.orderKey_eq {q : ℕ} {x : Float} (h : OnLine q x) (hq : q < 2 ^ 53) :
    orderKey x = naturalBits q ∨ q = 0 ∧ orderKey x = -1 := by
  have hlt := naturalBits_lt_two_pow hq
  have hbits := toBits_ofNat hq
  obtain hx | ⟨hx, hline⟩ := h
  · exact .inl (orderKey_of_toNat (hx.trans hbits) (by omega))
  · have hq0 : q = 0 := by
      by_contra hne
      have hpos := naturalBits_lt (Nat.pos_of_ne_zero hne) hq
      rw [IsZero, hbits] at hline
      omega
    subst hq0
    obtain hx | hx := hx
    · exact .inl (orderKey_of_toNat hx (by decide))
    · refine .inr ⟨rfl, ?_⟩
      rw [orderKey, hx]
      rfl

theorem OnLine.orderKey_lt {p q : ℕ} {x y : Float} (hx : OnLine p x) (hy : OnLine q y) (hpq : p < q)
    (hq : q < 2 ^ 53) : orderKey x < orderKey y := by
  have hlt := naturalBits_lt hpq hq
  obtain hy | hy := hy.orderKey_eq hq
  · obtain hx | hx := hx.orderKey_eq (hpq.trans hq) <;> omega
  · omega

end ZX.Decimal
