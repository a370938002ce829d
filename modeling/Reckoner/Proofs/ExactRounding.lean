import Mathlib
import Reckoner.Proofs.Unpacked

/-!
# Exact results are not rounded

An operation on floats takes its result apart into a significand and an exponent, shifts it to the
exponent of the format, and rounds what was shifted out. When the result is the value of a float,
only zeros are shifted out, and the operation gives that float. Products and whole numbers are
treated here by the rational numbers that they stand for.
-/

namespace Reckoner

open Float.Model Float.Model.UnpackedFloat

/-! ### Magnitudes -/

/-- The rational number that a significand and an exponent stand for. -/
def magnitude (m : Nat) (e : Int) : Rat := m * 2 ^ e

theorem magnitude_pos {m : Nat} (h : m ≠ 0) (e : Int) : 0 < magnitude m e := by
  have hm : (0 : Rat) < m := by exact_mod_cast Nat.pos_of_ne_zero h
  rw [magnitude]
  positivity

/-- The total exponent tells the magnitude up to a factor of two. -/
theorem magnitude_bounds {m : Nat} (h : m ≠ 0) (e : Int) :
    2 ^ (totalExponent m e - 1) ≤ magnitude m e ∧ magnitude m e < 2 ^ totalExponent m e := by
  have hle : ((2 ^ m.log2 : Nat) : Rat) ≤ m := by exact_mod_cast Nat.log2_self_le h
  have hlt : (m : Rat) < ((2 ^ (m.log2 + 1) : Nat) : Rat) := by exact_mod_cast Nat.lt_log2_self
  have hpos : (0 : Rat) < 2 ^ e := by positivity
  push_cast at hle hlt
  have hsplit : (2 : Rat) ^ (totalExponent m e - 1) = 2 ^ m.log2 * 2 ^ e := by
    rw [← zpow_natCast, ← zpow_add₀ two_ne_zero]
    congr 1
    rw [totalExponent]
    omega
  have hsplit' : (2 : Rat) ^ totalExponent m e = 2 ^ (m.log2 + 1) * 2 ^ e := by
    rw [← zpow_natCast, ← zpow_add₀ two_ne_zero]
    congr 1
  rw [hsplit, hsplit', magnitude]
  exact ⟨mul_le_mul_of_nonneg_right hle hpos.le, mul_lt_mul_of_pos_right hlt hpos⟩

/-- Two powers of two one below and one above a number. -/
theorem lt_of_two_zpow_le_of_lt {q : Rat} {i j : Int} (hle : 2 ^ i ≤ q) (hlt : q < 2 ^ j) :
    i < j :=
  (zpow_lt_zpow_iff_right₀ one_lt_two).mp (hle.trans_lt hlt)

/-- Equal magnitudes have one total exponent. -/
theorem totalExponent_eq {m m' : Nat} {e e' : Int} (h : m ≠ 0) (h' : m' ≠ 0)
    (heq : magnitude m e = magnitude m' e') : totalExponent m e = totalExponent m' e' := by
  obtain ⟨hle, hlt⟩ := magnitude_bounds h e
  obtain ⟨hle', hlt'⟩ := magnitude_bounds h' e'
  have hbelow := lt_of_two_zpow_le_of_lt hle (heq ▸ hlt')
  have habove := lt_of_two_zpow_le_of_lt hle' (heq ▸ hlt)
  omega

@[simp] theorem magnitude_zero (m : Nat) : magnitude m 0 = m := by
  rw [magnitude, zpow_zero, mul_one]

theorem magnitude_mul (m m' : Nat) (e e' : Int) :
    magnitude m e * magnitude m' e' = magnitude (m * m') (e + e') := by
  rw [magnitude, magnitude, magnitude, zpow_add₀ two_ne_zero]
  push_cast
  ring

theorem magnitude_mul_pow (m k : Nat) (e : Int) :
    magnitude (m * 2 ^ k) e = magnitude m (k + e) := by
  rw [magnitude, magnitude, zpow_add₀ two_ne_zero, zpow_natCast]
  push_cast
  ring

/-- With a smaller exponent the significand is larger by a power of two. -/
theorem eq_mul_pow_of_magnitude {m m' : Nat} {e e' : Int} (hle : e' ≤ e)
    (heq : magnitude m' e' = magnitude m e) : m' = m * 2 ^ (e - e').toNat := by
  have hexponent : e = (e - e').toNat + e' := by omega
  have hne : (2 : Rat) ^ e' ≠ 0 := by positivity
  rw [hexponent, ← magnitude_mul_pow, magnitude, magnitude] at heq
  exact_mod_cast mul_right_cancel₀ hne heq

/-! ### Rounding -/

/-- The exponent of a format is the least that leaves room for 53 bits. -/
theorem targetExponent_eq (total : Int) :
    Format.binary64.targetExponent total = max (total - 53) (-1074) := rfl

/-- Shifting zeros out of an exact significand leaves it exact. -/
theorem shiftRight_exact (m k : Nat) :
    (⟨m * 2 ^ k, false, false⟩ : ExtendedMantissa) >>> k = ⟨m, false, false⟩ := by
  induction k generalizing m with
  | zero =>
      rw [Nat.pow_zero, Nat.mul_one]
      rfl
  | succ k ih =>
      have hmore : m * 2 ^ (k + 1) = m * 2 * 2 ^ k := by
        rw [Nat.pow_succ, Nat.mul_assoc, Nat.mul_comm 2]
      change ExtendedMantissa.shiftRightOne
        ((⟨m * 2 ^ (k + 1), false, false⟩ : ExtendedMantissa) >>> k) = _
      rw [hmore, ih]
      simp [ExtendedMantissa.shiftRightOne]

namespace Exact

variable {x : Exact} {m : Nat} {e : Int}

def rational (x : Exact) : Rat := magnitude x.significand x.exponent

/-- A canonical value has the exponent of the format. -/
theorem Canonical.targetExponent (h : x.Canonical) (hpos : x.significand ≠ 0) :
    Format.binary64.targetExponent (totalExponent x.significand x.exponent) = x.exponent := by
  obtain ⟨hlt, hleast, -, hfull⟩ := h
  have hlog : x.significand.log2 < 53 := (Nat.log2_lt hpos).mpr hlt
  rw [targetExponent_eq, totalExponent]
  obtain hnormal | hleast := hfull
  · have := (Nat.le_log2 hpos).mpr hnormal
    omega
  · omega

theorem ne_zero_of_magnitude (hpos : x.significand ≠ 0) (heq : magnitude m e = x.rational) :
    m ≠ 0 := by
  rintro rfl
  have hzero : magnitude 0 e = 0 := by simp [magnitude]
  exact absurd (hzero.symm.trans heq) (magnitude_pos hpos x.exponent).ne

/-- What has a canonical value is shifted to it. -/
theorem shiftToTargetExponent_exact (h : x.Canonical) (hpos : x.significand ≠ 0)
    (hle : e ≤ x.exponent) (heq : magnitude m e = x.rational) :
    shiftToTargetExponent Format.binary64 m e .exact =
      (⟨x.significand, false, false⟩, x.exponent) := by
  have htotal := totalExponent_eq (ne_zero_of_magnitude hpos heq) hpos heq
  have hm := eq_mul_pow_of_magnitude hle heq
  rw [shiftToTargetExponent, htotal, h.targetExponent hpos, shiftToExponent]
  have hexponent : e + ((x.exponent - e).toNat : Int) = x.exponent := by omega
  simp only [ExtendedMantissa.ofMantissaAndAccuracy, hexponent]
  rw [hm, shiftRight_exact]

/-- What has a canonical value is rounded to it. -/
theorem roundWithAccuracy_exact (h : x.Canonical) (hpos : x.significand ≠ 0)
    (hle : e ≤ x.exponent) (heq : magnitude m e = x.rational) :
    roundWithAccuracy Format.binary64 x.sign m e .exact = x.unpacked := by
  have hrounded : ExtendedMantissa.roundedMantissa ⟨x.significand, false, false⟩ =
      x.significand := rfl
  simp only [roundWithAccuracy, shiftToTargetExponent_exact h hpos hle heq, hrounded,
    shiftToTargetExponent_exact h hpos le_rfl rfl, hpos, unpacked]

/-- The same when the exponent may have to be decreased first. -/
theorem round_exact (h : x.Canonical) (hpos : x.significand ≠ 0)
    (heq : magnitude m e = x.rational) :
    UnpackedFloat.round Format.binary64 x.sign m e = x.unpacked := by
  have htotal := totalExponent_eq (ne_zero_of_magnitude hpos heq) hpos heq
  simp only [UnpackedFloat.round, htotal, h.targetExponent hpos, decreaseExponent,
    Nat.shiftLeft_eq]
  apply roundWithAccuracy_exact h hpos
  · omega
  · rw [magnitude_mul_pow, ← heq]
    congr 1
    omega

/-! ### Products -/

variable {m' : Nat} {e' : Int} {s s' : Sign}

/-- A product that has a canonical value. -/
theorem mul_exact (h : x.Canonical) (hpos : x.significand ≠ 0) (hm : 0 < m) (hm' : 0 < m')
    (hsign : s * s' = x.sign) (hle : e + e' ≤ x.exponent)
    (heq : magnitude m e * magnitude m' e' = x.rational) :
    UnpackedFloat.mul Format.binary64 (.finite s m e hm) (.finite s' m' e' hm') = x.unpacked := by
  rw [UnpackedFloat.mul, hsign]
  exact roundWithAccuracy_exact h hpos hle ((magnitude_mul m m' e e').symm.trans heq)

theorem rational_lt (h : x.Canonical) : x.rational < 2 ^ (53 + x.exponent) := by
  have hlt : (x.significand : Rat) < ((2 ^ 53 : Nat) : Rat) := by exact_mod_cast h.lt
  rw [zpow_add₀ two_ne_zero, rational, magnitude]
  exact mul_lt_mul_of_pos_right (by exact_mod_cast hlt) (by positivity)

/-! ### Whole numbers -/

/-- A float with a canonical value is unpacked to it. -/
theorem unpack_pack (h : x.Canonical) : (Float.Model.pack x.unpacked).unpack = x.unpacked :=
  unpack_of_ofFloat? (ofFloat?_pack h)

/-- A whole number of at most 53 bits as a value. -/
def ofNat (n : Nat) : Exact :=
  if n = 0 then ⟨false, 0, -1074⟩ else ⟨false, n * 2 ^ (52 - n.log2), n.log2 - 52⟩

variable {n : Nat}

theorem canonical_ofNat (h : n < 2 ^ 53) : (ofNat n).Canonical := by
  rw [ofNat]
  split
  · exact ⟨by simp, by simp, by simp, .inr rfl⟩
  · rename_i hpos
    have hlog : n.log2 < 53 := (Nat.log2_lt hpos).mpr h
    have hle : 2 ^ n.log2 ≤ n := Nat.log2_self_le hpos
    have hlt : n < 2 ^ (n.log2 + 1) := Nat.lt_log2_self
    have hlow : 2 ^ 52 = 2 ^ n.log2 * 2 ^ (52 - n.log2) := by
      rw [← Nat.pow_add]
      congr 1
      omega
    have hhigh : 2 ^ 53 = 2 ^ (n.log2 + 1) * 2 ^ (52 - n.log2) := by
      rw [← Nat.pow_add]
      congr 1
      omega
    refine ⟨?_, by simp only; omega, by simp only; omega, .inl ?_⟩
    · rw [hhigh]
      exact Nat.mul_lt_mul_of_pos_right hlt (Nat.two_pow_pos _)
    · rw [hlow]
      exact Nat.mul_le_mul_right _ hle

theorem rational_ofNat (h : n < 2 ^ 53) : (ofNat n).rational = n := by
  rw [ofNat]
  split
  · rename_i hzero
    simp [hzero, rational, magnitude]
  · rename_i hpos
    have hlog : n.log2 < 53 := (Nat.log2_lt hpos).mpr h
    have hexponent : ((52 - n.log2 : Nat) : Int) + ((n.log2 : Int) - 52) = 0 := by omega
    rw [rational, magnitude_mul_pow, hexponent, magnitude_zero]

theorem significand_ofNat_ne_zero (hpos : n ≠ 0) : (ofNat n).significand ≠ 0 := by
  rw [ofNat, if_neg hpos]
  exact Nat.mul_ne_zero hpos (Nat.two_pow_pos _).ne'

theorem sign_ofNat (n : Nat) : (ofNat n).sign = .positive := by
  rw [ofNat]
  split <;> rfl

/-- A whole number of at most 53 bits is converted exactly. -/
theorem normalize_ofNat (h : n < 2 ^ 53) :
    UnpackedFloat.ofNat Format.binary64 n = (ofNat n).unpacked := by
  rw [UnpackedFloat.ofNat, UnpackedFloat.ofInt, UnpackedFloat.normalize]
  obtain rfl | hpos := Nat.eq_zero_or_pos n
  · rfl
  · rw [Int.compare_eq_gt.mpr (by omega)]
    have hvalue : magnitude n 0 = (ofNat n).rational := by
      rw [rational_ofNat h, magnitude_zero]
    have hround := round_exact (canonical_ofNat h) (significand_ofNat_ne_zero hpos.ne') hvalue
    rw [sign_ofNat] at hround
    exact hround

theorem unpack_toFloat (h : n < 2 ^ 53) :
    n.toUInt64.toFloat.toModel.unpack = (ofNat n).unpacked := by
  have hn : n.toUInt64.toNat = n := by
    simp
    omega
  change (Float.Model.pack (UnpackedFloat.ofNat Format.binary64 n.toUInt64.toNat)).unpack = _
  rw [hn, normalize_ofNat h, unpack_pack (canonical_ofNat h)]

/-! ### Whole numbers as floats -/

/-- The float one, as the table of powers of ten has it. -/
theorem ofFloat?_one :
    ofFloat? Float.exactlyRepresentablePowersOfTen[0] = some ⟨false, 2 ^ 52, -52⟩ := by
  decide +kernel

/-- A whole number of at most 53 bits is the value of its float. -/
theorem ofFloat?_ofNat (h : n < 2 ^ 53) : ofFloat? (Float.ofNat n) = some (ofNat n) := by
  have hproduct : Float.ofNat n =
      n.toUInt64.toFloat * Float.exactlyRepresentablePowersOfTen[0] := by
    change Float.ofScientific n false 0 = _
    rw [Float.ofScientific, dif_pos ⟨h, by decide⟩]
    rfl
  have hmul : UnpackedFloat.mul Format.binary64 (ofNat n).unpacked
      (⟨false, 2 ^ 52, -52⟩ : Exact).unpacked = (ofNat n).unpacked := by
    obtain rfl | hpos := Nat.eq_zero_or_pos n
    · rfl
    · have hsignificand := significand_ofNat_ne_zero hpos.ne'
      conv_lhs => rw [unpacked, dif_neg hsignificand]
      apply mul_exact (canonical_ofNat h) hsignificand
      · rw [sign_ofNat]
        rfl
      · simp
      · have hone : magnitude (2 ^ 52) (-52) = 1 := by
          norm_num [magnitude]
        rw [hone, mul_one]
        rfl
  rw [← ofFloat?_pack (canonical_ofNat h), hproduct, ← hmul, ← unpack_toFloat h,
    ← unpack_of_ofFloat? ofFloat?_one]
  rfl

theorem truncate_ofNat (h : n < 2 ^ 53) :
    (ofNat n).numerator / (ofNat n).denominator = n := by
  rw [ofNat]
  split
  · rename_i hzero
    simp [numerator, hzero]
  · rename_i hpos
    have hlog : n.log2 < 53 := (Nat.log2_lt hpos).mpr h
    have hup : ((n.log2 : Int) - 52).toNat = 0 := by omega
    have hdown : (-((n.log2 : Int) - 52)).toNat = 52 - n.log2 := by omega
    rw [numerator, denominator, hup, hdown, Nat.pow_zero, Nat.mul_one]
    exact Nat.mul_div_cancel n (Nat.two_pow_pos _)

def ofInt (i : Int) : Exact := { ofNat i.natAbs with negative := decide (i < 0) }

theorem negative_ofNat (n : Nat) : (ofNat n).negative = false := by
  rw [ofNat]
  split <;> rfl

variable {i : Int}

/-- An integer of at most 53 bits is the value of its float. -/
theorem ofFloat?_ofInt (h : i.natAbs < 2 ^ 53) : ofFloat? (Float.ofInt i) = some (ofInt i) := by
  cases i with
  | ofNat n =>
      have hsign : decide (Int.ofNat n < 0) = (ofNat n).negative := by
        rw [negative_ofNat]
        simp
      rw [ofInt, hsign]
      exact ofFloat?_ofNat h
  | negSucc n =>
      have hsign : decide (Int.negSucc n < 0) = !(ofNat (n + 1)).negative := by
        rw [negative_ofNat]
        exact decide_eq_true (Int.negSucc_lt_zero n)
      rw [ofInt, hsign]
      exact ofFloat?_neg (ofFloat?_ofNat h)

/-- A value with its sign. Both zeros have the value zero. -/
def toRat (x : Exact) : Rat := if x.negative then -x.rational else x.rational

theorem toRat_ofInt (h : i.natAbs < 2 ^ 53) : (ofInt i).toRat = i := by
  have hrational : (ofInt i).rational = (i.natAbs : Int) := rational_ofNat h
  have hnegative : (ofInt i).negative = decide (i < 0) := rfl
  rw [toRat, hrational, hnegative]
  by_cases hsign : i < 0
  · rw [if_pos (decide_eq_true hsign), Int.ofNat_natAbs_of_nonpos hsign.le]
    simp
  · rw [if_neg (by simpa using hsign), Int.natAbs_of_nonneg (by omega)]

/-- The whole part of an integer is the integer. -/
theorem truncate_ofInt (h : i.natAbs < 2 ^ 53) : (ofInt i).truncate = i := by
  have hwhole : (ofInt i).numerator / (ofInt i).denominator = i.natAbs := truncate_ofNat h
  have hnegative : (ofInt i).negative = decide (i < 0) := rfl
  rw [truncate, hwhole, hnegative]
  by_cases hsign : i < 0
  · rw [if_pos (decide_eq_true hsign)]
    omega
  · rw [if_neg (by simpa using hsign)]
    omega

end Exact

end Reckoner
