import Reckoner.Exact.Rounding
import Reckoner.Proofs.ExactRounding

/-!
# Rounding to the nearest

Results of arithmetic and digits of output are rounded in one way: to the nearest whole number, and
from the middle between two to the even one. Arithmetic on floats keeps two bits of what it shifts
out of a significand; they are enough to round the exact result in this way. The bits of the float
that a positive number is rounded to are the rounded significand over an offset for its exponent,
also where rounding gives the significand one bit more.
-/

-- Powers are those of the core library.
attribute [instance(2000), default_instance(20000)] instPowNat

namespace Reckoner

open Float.Model Float.Model.UnpackedFloat

/-! ### The nearest whole number -/

/-- Whether a whole number is the nearest one; the middle between two goes to the even one. -/
def NearestEven (m : Nat) (q : Rat) : Prop :=
  |q - m| < 1 / 2 ∨ |q - m| = 1 / 2 ∧ m % 2 = 0

namespace NearestEven

variable {m n : Nat} {q r : Rat}

theorem natCast (m : Nat) : NearestEven m m := by
  left
  norm_num

theorem bounds (h : NearestEven m q) : (m : Rat) - 1 / 2 ≤ q ∧ q ≤ m + 1 / 2 := by
  have habs : |q - m| ≤ 1 / 2 := h.elim le_of_lt fun htie => htie.1.le
  obtain ⟨hlow, hhigh⟩ := abs_le.mp habs
  constructor <;> linarith

/-- Only an even number is half a unit away from what is rounded to it. -/
theorem even (h : NearestEven m q) (htie : |q - m| = 1 / 2) : m % 2 = 0 := by
  obtain hnear | ⟨-, heven⟩ := h
  · exact absurd htie hnear.ne
  · exact heven

/-- Rounding keeps the order. -/
theorem mono (hm : NearestEven m q) (hn : NearestEven n r) (hle : q ≤ r) : m ≤ n := by
  by_contra hlt
  have hsucc : (n : Rat) + 1 ≤ m := by exact_mod_cast Nat.lt_of_not_le hlt
  obtain ⟨hlow, -⟩ := hm.bounds
  obtain ⟨-, hhigh⟩ := hn.bounds
  -- The two numbers can only be the neighbours of one middle, but one of them is odd.
  have hnext : m = n + 1 := by exact_mod_cast (by linarith : (m : Rat) = n + 1)
  have hmtie : |q - m| = 1 / 2 := by
    rw [show q - m = -(1 / 2) by linarith]
    norm_num
  have hntie : |r - n| = 1 / 2 := by
    rw [show r - n = 1 / 2 by linarith]
    norm_num
  have := hm.even hmtie
  have := hn.even hntie
  omega

theorem unique (hm : NearestEven m q) (hn : NearestEven n q) : m = n :=
  Nat.le_antisymm (hm.mono hn le_rfl) (hn.mono hm le_rfl)

theorem le_of_le (h : NearestEven m q) (hle : q ≤ n) : m ≤ n := h.mono (natCast n) hle

theorem ge_of_ge (h : NearestEven m q) (hle : n ≤ q) : n ≤ m := (natCast n).mono h hle

/-- In the lower half of a unit the number before is the nearest. -/
theorem of_lower (hlow : m ≤ q) (hhigh : q < m + 1 / 2) : NearestEven m q := by
  left
  rw [abs_of_nonneg (by linarith)]
  linarith

/-- In the upper half it is the number behind. -/
theorem of_upper (hlow : m + 1 / 2 < q) (hhigh : q ≤ m + 1) : NearestEven (m + 1) q := by
  left
  push_cast
  rw [abs_of_nonpos (by linarith)]
  linarith

theorem of_middle (h : q = m + 1 / 2) : NearestEven (m + m % 2) q := by
  right
  refine ⟨?_, by omega⟩
  obtain hparity | hparity : m % 2 = 0 ∨ m % 2 = 1 := by omega
  all_goals
    rw [h, hparity]
    push_cast
    norm_num

end NearestEven

/-- The fraction is rounded to the nearest whole number. -/
theorem nearestEven_roundHalfEven (numerator : Nat) {denominator : Nat} (h : 0 < denominator) :
    NearestEven (roundHalfEven numerator denominator) (numerator / denominator : Rat) := by
  have hdenominator : (0 : Rat) < denominator := by exact_mod_cast h
  have hsplit : (numerator : Rat) =
      denominator * (numerator / denominator : Nat) + (numerator % denominator : Nat) := by
    exact_mod_cast (Nat.div_add_mod numerator denominator).symm
  have hlt := Nat.mod_lt numerator h
  simp only [roundHalfEven]
  generalize numerator / denominator = quotient at *
  generalize numerator % denominator = remainder at *
  have hnonneg : (0 : Rat) ≤ remainder := remainder.cast_nonneg
  have hlow : (quotient : Rat) ≤ numerator / denominator := by
    rw [le_div_iff₀ hdenominator]
    linarith
  split
  · rename_i hless
    have hless' : (2 * remainder : Rat) < denominator := by exact_mod_cast hless
    apply NearestEven.of_lower hlow
    rw [div_lt_iff₀ hdenominator]
    linarith
  · rename_i hmore
    obtain htie | hpast := Nat.eq_or_lt_of_le (Nat.le_of_not_lt hmore)
    · have htie' : (denominator : Rat) = 2 * remainder := by exact_mod_cast htie
      have hmiddle : (numerator / denominator : Rat) = quotient + 1 / 2 := by
        rw [div_eq_iff hdenominator.ne']
        linarith
      have hround := NearestEven.of_middle hmiddle
      split
      · rename_i heven
        rwa [heven.2, Nat.add_zero] at hround
      · rename_i hodd
        have hone : quotient % 2 = 1 := by
          have : ¬quotient % 2 = 0 := fun heven => hodd ⟨htie.symm, heven⟩
          omega
        rwa [hone] at hround
    · rw [if_neg (by omega)]
      have hpast' : (denominator : Rat) < 2 * remainder := by exact_mod_cast hpast
      have hlt' : (remainder : Rat) < denominator := by exact_mod_cast hlt
      apply NearestEven.of_upper
      · rw [lt_div_iff₀ hdenominator]
        linarith
      · rw [div_le_iff₀ hdenominator]
        linarith

/-! ### What is shifted out of a significand -/

/-- The whole halves of a significand: the first of the two bits that are kept counts one half. -/
def halves (em : ExtendedMantissa) : Nat := 2 * em.mantissa + em.roundBit.toNat

/-- What a significand with two bits tells of a number: how many whole halves it has, and whether
there is more. -/
structure Represents (em : ExtendedMantissa) (q : Rat) : Prop where
  low : halves em ≤ 2 * q
  high : 2 * q < halves em + 1
  sticky : em.stickyBit = true ↔ (halves em : Rat) ≠ 2 * q

namespace Represents

variable {em : ExtendedMantissa} {q : Rat} {m n : Nat}

theorem mantissa_le (h : Represents em q) : em.mantissa ≤ q := by
  have hle : (2 * em.mantissa : Rat) ≤ halves em := by
    exact_mod_cast Nat.le_add_right (2 * em.mantissa) _
  linarith [h.low]

theorem lt_mantissa (h : Represents em q) : q < em.mantissa + 1 := by
  have hbit := Bool.toNat_le em.roundBit
  have hle : (halves em : Rat) ≤ 2 * em.mantissa + 1 := by
    exact_mod_cast Nat.add_le_add_left hbit (2 * em.mantissa)
  linarith [h.high]

theorem of_eq (h : (halves em : Rat) = 2 * q) (hsticky : em.stickyBit = false) :
    Represents em q := by
  refine ⟨h.le, h ▸ lt_add_one _, ?_⟩
  rw [hsticky]
  exact iff_of_false Bool.false_ne_true (not_not_intro h)

theorem of_lt (hlow : halves em < 2 * q) (hhigh : 2 * q < halves em + 1)
    (hsticky : em.stickyBit = true) : Represents em q :=
  ⟨hlow.le, hhigh, iff_of_true hsticky hlow.ne⟩

theorem exact (m : Nat) : Represents (.ofMantissaAndAccuracy m .exact) m := by
  apply of_eq _ rfl
  simp [halves, ExtendedMantissa.ofMantissaAndAccuracy]

/-- A quotient, and how its remainder compares to half of the divisor. -/
theorem quotient (m : Nat) (hn : 0 < n) :
    Represents (.ofMantissaAndAccuracy (m / n) (accuracyOfFraction (m % n) n)) (m / n) := by
  have hpos : (0 : Rat) < n := by exact_mod_cast hn
  have htwice : (2 * (m / n) : Rat) = 2 * (m / n : Nat) + (2 * (m % n) : Nat) / n := by
    have : (m : Rat) = n * (m / n : Nat) + (m % n : Nat) := by
      exact_mod_cast (Nat.div_add_mod m n).symm
    push_cast
    field_simp
    linarith
  have hlt : ((2 * (m % n) : Nat) / n : Rat) < 2 := by
    rw [div_lt_iff₀ hpos]
    exact_mod_cast Nat.mul_lt_mul_of_pos_left (Nat.mod_lt m hn) two_pos
  rw [accuracyOfFraction]
  split
  · rename_i hzero
    apply of_eq _ rfl
    rw [htwice, hzero]
    simp [halves, ExtendedMantissa.ofMantissaAndAccuracy]
  · rename_i hrest
    have hmore : (0 : Rat) < (2 * (m % n) : Nat) / n := by
      have : (0 : Rat) < (2 * (m % n) : Nat) := by exact_mod_cast (by omega : 0 < 2 * (m % n))
      positivity
    cases hcompare : compare (2 * (m % n)) n with
    | lt =>
        have hhalf : ((2 * (m % n) : Nat) / n : Rat) < 1 := by
          rw [div_lt_one hpos]
          exact_mod_cast Nat.compare_eq_lt.mp hcompare
        have hhalves : (halves (.ofMantissaAndAccuracy (m / n) (.inexact .lt)) : Rat) =
            2 * (m / n : Nat) := by
          simp [halves, ExtendedMantissa.ofMantissaAndAccuracy]
        apply of_lt _ _ rfl <;> rw [hhalves] <;> linarith
    | eq =>
        have hhalf : ((2 * (m % n) : Nat) / n : Rat) = 1 := by
          rw [div_eq_one_iff_eq hpos.ne']
          exact_mod_cast Nat.compare_eq_eq.mp hcompare
        apply of_eq _ rfl
        rw [htwice, hhalf]
        simp [halves, ExtendedMantissa.ofMantissaAndAccuracy]
    | gt =>
        have hhalf : (1 : Rat) < (2 * (m % n) : Nat) / n := by
          rw [one_lt_div hpos]
          exact_mod_cast Nat.compare_eq_gt.mp hcompare
        have hhalves : (halves (.ofMantissaAndAccuracy (m / n) (.inexact .gt)) : Rat) =
            2 * (m / n : Nat) + 1 := by
          simp [halves, ExtendedMantissa.ofMantissaAndAccuracy]
        apply of_lt _ _ rfl <;> rw [hhalves] <;> linarith

theorem shiftRightOne (h : Represents em q) : Represents em.shiftRightOne (q / 2) := by
  have hhalves : halves em.shiftRightOne = em.mantissa := by
    have hbit : (em.mantissa % 2 != 0).toNat = em.mantissa % 2 := by
      obtain hparity | hparity := Nat.mod_two_eq_zero_or_one em.mantissa <;> simp [hparity]
    simp only [halves, ExtendedMantissa.shiftRightOne, hbit]
    omega
  have hq : 2 * (q / 2) = q := mul_div_cancel₀ q two_ne_zero
  constructor
  · rw [hhalves, hq]
    exact h.mantissa_le
  · rw [hhalves, hq]
    exact h.lt_mantissa
  · rw [hhalves, hq]
    -- Something is left over if the half is, or what was left over from it.
    obtain ⟨m, round, sticky⟩ := em
    obtain ⟨hlow, -, hsticky⟩ := h
    simp only [halves, ExtendedMantissa.shiftRightOne, Bool.or_eq_true] at *
    rw [hsticky]
    cases round with
    | false => simp
    | true =>
        refine iff_of_true (.inl rfl) (ne_of_lt ?_)
        push_cast at hlow
        simp at hlow
        linarith

theorem shiftRight (h : Represents em q) (k : Nat) : Represents (em >>> k) (q / 2 ^ k) := by
  induction k with
  | zero =>
      rw [pow_zero, div_one]
      exact h
  | succ k ih =>
      rw [pow_succ, ← div_div]
      exact ih.shiftRightOne

/-- The two bits are enough to round. -/
theorem nearestEven (h : Represents em q) : NearestEven em.roundedMantissa q := by
  obtain ⟨m, round, sticky⟩ := em
  obtain ⟨hlow, hhigh, hsticky⟩ := h
  cases round with
  | false =>
      have hhalves : (halves ⟨m, false, sticky⟩ : Rat) = 2 * m := by simp [halves]
      rw [hhalves] at hlow hhigh
      have hrounded : ExtendedMantissa.roundedMantissa ⟨m, false, sticky⟩ = m := by
        cases sticky <;> rfl
      rw [hrounded]
      apply NearestEven.of_lower <;> linarith
  | true =>
      have hhalves : (halves ⟨m, true, sticky⟩ : Rat) = 2 * m + 1 := by simp [halves]
      rw [hhalves] at hlow hhigh hsticky
      cases sticky with
      | false =>
          have hmiddle : (2 * m + 1 : Rat) = 2 * q := by simpa using hsticky
          exact NearestEven.of_middle (by linarith)
      | true =>
          have hmore : (2 * m + 1 : Rat) < 2 * q := lt_of_le_of_ne hlow (hsticky.mp rfl)
          apply NearestEven.of_upper <;> linarith

end Represents

/-! ### Rounding to a float -/

/-- The exponent of the float that a number is rounded to, without its sign. It leaves room for 53 bits,
unless it is the least. -/
structure HasExponent (q : Rat) (t : Int) : Prop where
  least : -1074 ≤ t
  low : 2 ^ (t + 52) ≤ q ∨ t = -1074
  high : q < 2 ^ (t + 53)

theorem exists_hasExponent {q : Rat} (hnonneg : 0 ≤ q) : ∃ t, HasExponent q t := by
  obtain rfl | hq := hnonneg.eq_or_lt
  · exact ⟨-1074, le_rfl, .inr rfl, by positivity⟩
  have hlow := Int.zpow_log_le_self (b := 2) (by decide) hq
  have hhigh := Int.lt_zpow_succ_log_self (b := 2) (by decide) q
  push_cast at hlow hhigh
  refine ⟨max (Int.log 2 q - 52) (-1074), le_max_right _ _, ?_, ?_⟩
  · obtain hlarge | hsmall := le_total (-1074) (Int.log 2 q - 52)
    · left
      rwa [max_eq_left hlarge, sub_add_cancel]
    · right
      exact max_eq_right hsmall
  · refine hhigh.trans_le (zpow_le_zpow_right₀ one_le_two ?_)
    omega

namespace HasExponent

variable {q : Rat} {t e : Int} {m r : Nat} {accuracy : Accuracy}

/-- The significand of so many bits has the exponent of the number. -/
theorem targetExponent (h : HasExponent q t) (hle : e ≤ t) (hlow : m ≤ q / 2 ^ e)
    (hhigh : q / 2 ^ e < m + 1) :
    Format.binary64.targetExponent (totalExponent m e) = t := by
  have hpos : (0 : Rat) < 2 ^ e := by positivity
  rw [le_div_iff₀ hpos] at hlow
  rw [div_lt_iff₀ hpos] at hhigh
  have hleast := h.least
  -- Below the next power of two after the significand lies the number itself.
  have hbelow : q < 2 ^ totalExponent m e := by
    refine hhigh.trans_le ?_
    have hlog : (m + 1 : Rat) ≤ 2 ^ (m.log2 + 1) := by
      exact_mod_cast Nat.succ_le_of_lt (Nat.lt_log2_self (n := m))
    rw [totalExponent, zpow_add₀ two_ne_zero]
    exact mul_le_mul_of_nonneg_right (by exact_mod_cast hlog) hpos.le
  have hup : t + 52 < totalExponent m e ∨ t = -1074 :=
    h.low.imp_left fun hlarge => lt_of_two_zpow_le_of_lt hlarge hbelow
  rw [targetExponent_eq]
  by_cases hzero : m = 0
  · subst hzero
    have htotal : totalExponent 0 e = 1 + e := by
      rw [totalExponent]
      rfl
    omega
  · have hdown := lt_of_two_zpow_le_of_lt ((magnitude_bounds hzero e).1.trans hlow) h.high
    omega

theorem shiftToTargetExponent (h : HasExponent q t) (hle : e ≤ t)
    (hrep : Represents (.ofMantissaAndAccuracy m accuracy) (q / 2 ^ e)) :
    ∃ em, Float.Model.UnpackedFloat.shiftToTargetExponent Format.binary64 m e accuracy = (em, t) ∧
      Represents em (q / 2 ^ t) := by
  have hmantissa : (ExtendedMantissa.ofMantissaAndAccuracy m accuracy).mantissa = m := by
    cases accuracy with
    | exact => rfl
    | inexact order => cases order <;> rfl
  have hlow := hrep.mantissa_le
  have hhigh := hrep.lt_mantissa
  rw [hmantissa] at hlow hhigh
  refine ⟨ExtendedMantissa.ofMantissaAndAccuracy m accuracy >>> (t - e).toNat, ?_, ?_⟩
  · have hexponent : e + ((t - e).toNat : Int) = t := by omega
    rw [Float.Model.UnpackedFloat.shiftToTargetExponent, h.targetExponent hle hlow hhigh,
      shiftToExponent]
    simp only [hexponent]
  · have hshifted := hrep.shiftRight (t - e).toNat
    have hexponent : ((t - e).toNat : Int) = t - e := by omega
    rwa [← zpow_natCast, hexponent, div_div, ← zpow_add₀ two_ne_zero, add_sub_cancel] at hshifted

/-- The rounded significand. Only the least exponent leaves it fewer than 53 bits, and rounding up
may give it one more. -/
theorem significand_bounds (h : HasExponent q t) (hr : NearestEven r (q / 2 ^ t)) :
    r ≤ 2 ^ 53 ∧ (2 ^ 52 ≤ r ∨ t = -1074) := by
  have hpos : (0 : Rat) < 2 ^ t := by positivity
  have hscale (k : Nat) : (2 : Rat) ^ (t + k) = (2 ^ k : Nat) * 2 ^ t := by
    rw [zpow_add₀ two_ne_zero, zpow_natCast, mul_comm]
    push_cast
    rfl
  constructor
  · apply hr.le_of_le
    rw [div_le_iff₀ hpos, ← hscale]
    exact h.high.le
  · refine h.low.imp_left fun hlarge => hr.ge_of_ge ?_
    rw [le_div_iff₀ hpos, ← hscale]
    exact hlarge

end HasExponent

/-- The value of a rounded significand. One that has grown to 54 bits is halved. -/
def carried (r : Nat) (t : Int) : Exact :=
  if r = 2 ^ 53 then ⟨false, 2 ^ 52, t + 1⟩ else ⟨false, r, t⟩

section Carried

variable {q : Rat} {t e : Int} {m r : Nat} {accuracy : Accuracy}

/-- Behind rounding a significand is shifted once more, if it has grown. -/
theorem shiftToTargetExponent_carried (hr : r ≤ 2 ^ 53) (ht : -1074 ≤ t) :
    shiftToTargetExponent Format.binary64 r t .exact =
      (⟨(carried r t).significand, false, false⟩, (carried r t).exponent) := by
  rw [shiftToTargetExponent, shiftToExponent, targetExponent_eq, totalExponent, carried]
  simp only [ExtendedMantissa.ofMantissaAndAccuracy]
  split
  · rename_i hfull
    have hlog : r.log2 = 53 := hfull ▸ Nat.log2_two_pow
    have hshift : (max (((r.log2 : Int) + 1 + t) - 53) (-1074) - t).toNat = 1 := by omega
    rw [hshift, hfull, ← shiftRight_exact (2 ^ 52) 1]
    rfl
  · rename_i hfull
    have hlog : r.log2 < 53 := by
      obtain rfl | hpos := Nat.eq_zero_or_pos r
      · decide
      · exact (Nat.log2_lt hpos.ne').mpr (by omega)
    have hshift : (max (((r.log2 : Int) + 1 + t) - 53) (-1074) - t).toNat = 0 := by omega
    rw [hshift]
    simp only [Nat.cast_zero, add_zero]
    rfl

/-- What stands for a positive number is rounded to the nearest significand of its exponent. -/
theorem roundWithAccuracy_eq (h : HasExponent q t) (hle : e ≤ t)
    (hrep : Represents (.ofMantissaAndAccuracy m accuracy) (q / 2 ^ e)) :
    ∃ r, NearestEven r (q / 2 ^ t) ∧
      roundWithAccuracy Format.binary64 .positive m e accuracy = (carried r t).unpacked := by
  obtain ⟨em, hshift, hem⟩ := h.shiftToTargetExponent hle hrep
  refine ⟨em.roundedMantissa, hem.nearestEven, ?_⟩
  have hbounds := h.significand_bounds hem.nearestEven
  have hsign : (carried em.roundedMantissa t).sign = .positive := by
    rw [carried]
    split <;> rfl
  simp only [roundWithAccuracy, hshift, shiftToTargetExponent_carried hbounds.1 h.least,
    Exact.unpacked, hsign]

/-- A finite value with too large an exponent is packed as an infinity. -/
theorem toNat_pack_overflow (hr : 0 < r) (ht : 971 < t) :
    (UnpackedFloat.pack Format.binary64 (.finite .positive r t hr)).toNat = 2047 * 2 ^ 52 := by
  have hbiased : 2 ^ Format.binary64.exponentBits ≤ (t + (Format.binary64.exponentBias : Int) +
      (Format.binary64.mantissaBitsWithoutImplicit : Int)).toNat + 1 := by
    simp [Format.exponentBias]
    omega
  simp only [UnpackedFloat.pack]
  rw [if_pos hbiased, packedInfinity, toNat_packComponents]
  rfl

/-- The bits of a rounded significand. A value that is too large has those of infinity. -/
theorem toNat_pack_carried (ht : -1074 ≤ t) (hle : r ≤ 2 ^ 53) (hfull : 2 ^ 52 ≤ r ∨ t = -1074) :
    (UnpackedFloat.pack Format.binary64 (carried r t).unpacked).toNat =
      min ((t + 1074).toNat * 2 ^ 52 + r) (2047 * 2 ^ 52) := by
  have hcarried : ((carried r t).exponent + 1074).toNat * 2 ^ 52 + (carried r t).significand =
      (t + 1074).toNat * 2 ^ 52 + r ∧ (carried r t).significand < 2 ^ 53 ∧
        -1074 ≤ (carried r t).exponent ∧
        (2 ^ 52 ≤ (carried r t).significand ∨ (carried r t).exponent = -1074) ∧
        (carried r t).negative = false := by
    rw [carried]
    split <;> refine ⟨?_, ?_, ?_, ?_, rfl⟩ <;> simp only <;> omega
  obtain ⟨hsame, hlt, hleast, hfull, hnegative⟩ := hcarried
  rw [← hsame]
  generalize carried r t = x at *
  have hsign : x.sign = .positive := by
    rw [Exact.sign, hnegative]
    rfl
  obtain hfits | hlarge := le_or_gt x.exponent 971
  · have hcanonical : x.Canonical := ⟨hlt, hleast, hfits, hfull⟩
    have hzero : Sign.positive.toBitVec.toNat = 0 := rfl
    rw [Exact.toNat_pack hcanonical, hsign, hzero, Nat.zero_mul, Nat.zero_add]
    symm
    apply min_eq_left
    omega
  · have hpos : x.significand ≠ 0 := by omega
    rw [Exact.unpacked, dif_neg hpos, hsign, toNat_pack_overflow _ hlarge]
    symm
    apply min_eq_right
    omega

end Carried

end Reckoner
