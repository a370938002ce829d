import Mathlib.Data.Int.Log
import Reckoner.Format
import Reckoner.Proofs.Shortest

/-!
# Significant digits

The decimal exponent of a number is the power of ten of its first digit. A value is rounded to
significant digits at the place that its leading power tells, and what comes out is in scientific
notation: the exponent that is written is the decimal exponent of the rounded number, also where
rounding gives a new first digit. Rounding the value itself to the places that this exponent leaves
gives the same number again.
-/

-- Powers are those of the core library.
attribute [instance(2000), default_instance(20000)] instPowNat

namespace Reckoner

/-! ### Decimal exponents -/

/-- The power of ten of the first digit of a number, and zero for zero. -/
def decimalExponent (q : Rat) : Int := Int.log 10 |q|

variable {q r : Rat} {k l : Int}

@[simp] theorem decimalExponent_zero : decimalExponent 0 = 0 := by
  simp [decimalExponent]

@[simp] theorem decimalExponent_neg (q : Rat) : decimalExponent (-q) = decimalExponent q := by
  simp [decimalExponent]

theorem ten_zpow_pos (k : Int) : (0 : Rat) < 10 ^ k := zpow_pos (by norm_num) k

theorem decimalExponent_eq (hlow : 10 ^ k ≤ q) (hhigh : q < 10 ^ (k + 1)) :
    decimalExponent q = k := by
  have hpos : 0 < q := (ten_zpow_pos k).trans_le hlow
  have hle : k ≤ decimalExponent q := by
    rw [decimalExponent, abs_of_pos hpos]
    exact (Int.zpow_le_iff_le_log (by norm_num) hpos).mp (by exact_mod_cast hlow)
  have hlt : decimalExponent q < k + 1 := by
    rw [decimalExponent, abs_of_pos hpos]
    exact (Int.lt_zpow_iff_log_lt (by norm_num) hpos).mp (by exact_mod_cast hhigh)
  omega

theorem lt_of_ten_zpow (hlow : 10 ^ k ≤ q) (hhigh : q < 10 ^ l) : k < l :=
  (zpow_lt_zpow_iff_right₀ (by norm_num : (1 : Rat) < 10)).mp (hlow.trans_lt hhigh)

/-! ### Decimals and scientific notation as numbers -/

namespace Decimal

theorem rational_trim (d : Decimal) : d.trim.rational = d.rational := by
  have hvalue : (d.trim.coefficient : Rat) * 10 ^ d.places =
      d.coefficient * 10 ^ d.trim.places := by
    exact_mod_cast d.trim_value
  rw [rational, rational, div_eq_div_iff (by positivity) (by positivity), hvalue]

theorem rational_scaled (n : Nat) (scale : Int) :
    (scaled n scale).rational = n * 10 ^ (-scale) := by
  rw [scaled]
  split
  · rename_i hscale
    rw [rational, zpow_neg, div_eq_mul_inv]
    simp only
    rw [← zpow_natCast, Int.toNat_of_nonneg hscale]
  · rename_i hscale
    have hnonneg : 0 ≤ -scale := by omega
    simp only [rational, pow_zero, div_one, Nat.cast_mul, Nat.cast_pow, Nat.cast_ofNat]
    rw [← zpow_natCast, Int.toNat_of_nonneg hnonneg]

/-- A number of so many digits lies between two powers of ten. -/
theorem digitCount_bounds {n : Nat} (h : n ≠ 0) :
    10 ^ (digitCount n - 1) ≤ n ∧ n < 10 ^ digitCount n := by
  have hpos : 0 < digitCount n := Nat.length_toDigits_pos
  refine ⟨?_, (Nat.length_toDigits_le_iff (by decide) hpos).mp le_rfl⟩
  by_cases hone : digitCount n = 1
  · rw [hone]
    exact Nat.one_le_iff_ne_zero.mpr h
  · have hless : ¬ digitCount n ≤ digitCount n - 1 := by omega
    have hiff := Nat.length_toDigits_le_iff (b := 10) (n := n) (k := digitCount n - 1) (by decide)
      (by omega)
    exact Nat.le_of_not_lt fun hlt => hless (hiff.mpr hlt)

end Decimal

namespace Scientific

def rational (s : Scientific) : Rat := s.mantissa.rational * 10 ^ s.exponent

/-- The mantissa has one digit before the point, and it is not zero unless the number is. -/
def Standard (s : Scientific) : Prop :=
  s.mantissa.rational = 0 ∧ s.exponent = 0 ∨
    1 ≤ s.mantissa.rational ∧ s.mantissa.rational < 10

variable {s : Scientific}

/-- The exponent of a number is its decimal exponent. -/
theorem Standard.exponent_eq (h : s.Standard) : s.exponent = decimalExponent s.rational := by
  obtain ⟨hzero, hexponent⟩ | ⟨hlow, hhigh⟩ := h
  · rw [rational, hzero, zero_mul, decimalExponent_zero, hexponent]
  · have hpos := ten_zpow_pos s.exponent
    refine (decimalExponent_eq ?_ ?_).symm
    · exact le_mul_of_one_le_left hpos.le hlow
    · rw [zpow_add_one₀ (by norm_num), rational, mul_comm]
      exact mul_lt_mul_of_pos_left hhigh hpos

theorem rational_ofDecimal (d : Decimal) : (ofDecimal d).rational = d.rational := by
  have hten : (10 : Rat) ≠ 0 := by norm_num
  simp only [ofDecimal, rational, Decimal.rational_trim]
  rw [Decimal.rational, Decimal.rational, zpow_sub₀ hten, zpow_natCast, zpow_natCast]
  field_simp

/-- A decimal has scientific notation; the decimal zero has no places. -/
theorem standard_ofDecimal {d : Decimal} (h : d.coefficient = 0 → d.places = 0) :
    (ofDecimal d).Standard := by
  rw [Standard]
  simp only [ofDecimal, Decimal.rational_trim]
  by_cases hzero : d.coefficient = 0
  · left
    simp [Decimal.rational, hzero, h hzero, Decimal.digitCount]
  · right
    obtain ⟨hlow, hhigh⟩ := Decimal.digitCount_bounds hzero
    have hsucc : Decimal.digitCount d.coefficient - 1 + 1 = Decimal.digitCount d.coefficient :=
      Nat.succ_pred_eq_of_pos Nat.length_toDigits_pos
    generalize Decimal.digitCount d.coefficient - 1 = behind at hlow hsucc ⊢
    rw [← hsucc, Nat.pow_succ] at hhigh
    have hpos : (0 : Rat) < 10 ^ behind := by positivity
    rw [Decimal.rational]
    constructor
    · rw [one_le_div hpos]
      exact_mod_cast hlow
    · rw [div_lt_iff₀ hpos, mul_comm]
      exact_mod_cast hhigh

end Scientific

/-! ### Rounding -/

/-- What is rounded up to a power of ten is so near it that it is rounded up at the place before
too. -/
theorem NearestEven.carry {places : Nat} (h : NearestEven (10 ^ (places + 1)) (q * 10)) :
    NearestEven (10 ^ places) q := by
  obtain ⟨hlow, hhigh⟩ := h.bounds
  rw [pow_succ, Nat.cast_mul, Nat.cast_ofNat] at hlow hhigh
  left
  rw [abs_lt]
  constructor <;> linarith

namespace Exact

variable (x : Exact) {places : Nat}

/-! ### The leading power -/

/-- The leading power of a value is its decimal exponent. -/
theorem leadingPower_bounds (h : x.numerator ≠ 0) :
    10 ^ x.leadingPower ≤ x.rational ∧ x.rational < 10 ^ (x.leadingPower + 1) := by
  have hden := x.denominator_pos
  have hdenRat : (0 : Rat) < x.denominator := by exact_mod_cast hden
  rw [rational_eq_div, le_div_iff₀ hdenRat, div_lt_iff₀ hdenRat, leadingPower, if_neg h]
  split
  · rename_i hle
    -- The value is at least one: the digits of its whole part are counted.
    have hwhole : x.numerator / x.denominator ≠ 0 := (Nat.div_pos hle hden).ne'
    obtain ⟨hlow, hhigh⟩ := Decimal.digitCount_bounds hwhole
    have hcount : (Decimal.digitCount (x.numerator / x.denominator) : Int) - 1 =
        ((Decimal.digitCount (x.numerator / x.denominator) - 1 : Nat) : Int) := by
      have : 0 < Decimal.digitCount (x.numerator / x.denominator) := Nat.length_toDigits_pos
      omega
    constructor
    · rw [hcount, zpow_natCast]
      exact_mod_cast (Nat.le_div_iff_mul_le hden).mp hlow
    · rw [sub_add_cancel, zpow_natCast]
      exact_mod_cast (Nat.div_lt_iff_lt_mul hden).mp hhigh
  · rename_i hlt
    -- The value is less than one: as many digits as its inverse has stand before its own.
    have hnum := Nat.pos_of_ne_zero h
    have hinverse : (x.denominator - 1) / x.numerator ≠ 0 := by
      have : x.numerator ≤ x.denominator - 1 := by omega
      exact (Nat.div_pos this hnum).ne'
    obtain ⟨hlow, hhigh⟩ := Decimal.digitCount_bounds hinverse
    have hpos : 0 < Decimal.digitCount ((x.denominator - 1) / x.numerator) :=
      Nat.length_toDigits_pos
    generalize Decimal.digitCount ((x.denominator - 1) / x.numerator) = count
      at hlow hhigh hpos ⊢
    have hlow' : 10 ^ (count - 1) * x.numerator ≤ x.denominator - 1 :=
      (Nat.le_div_iff_mul_le hnum).mp hlow
    have hhigh' : x.denominator - 1 < 10 ^ count * x.numerator :=
      (Nat.div_lt_iff_lt_mul hnum).mp hhigh
    constructor
    · rw [zpow_neg, zpow_natCast, inv_mul_le_iff₀ (by positivity)]
      exact_mod_cast (by omega : x.denominator ≤ 10 ^ count * x.numerator)
    · have hcount : -(count : Int) + 1 = -((count - 1 : Nat) : Int) := by omega
      rw [hcount, zpow_neg, zpow_natCast, lt_inv_mul_iff₀ (by positivity)]
      exact_mod_cast (by omega : 10 ^ (count - 1) * x.numerator < x.denominator)

/-! ### Rounding to significant digits -/

theorem scaledUp_pos (scale : Int) : 0 < (x.scaledUp scale).2 :=
  Nat.mul_pos x.denominator_pos (Nat.pow_pos (by decide))

theorem scaledUp_rational (scale : Int) :
    ((x.scaledUp scale).1 : Rat) / (x.scaledUp scale).2 = x.rational * 10 ^ scale := by
  have hscale : (scale.toNat : Int) - ((-scale).toNat : Int) = scale := by omega
  have hten : (10 : Rat) ≠ 0 := by norm_num
  conv_rhs => rw [← hscale]
  rw [scaledUp, rational_eq_div, zpow_sub₀ hten, zpow_natCast, zpow_natCast]
  push_cast
  rw [div_mul_div_comm]

/-- At the place of its last significant digit a value has so many digits before the point. -/
theorem rational_scaled_bounds (h : x.numerator ≠ 0) (places : Nat) :
    (10 : Rat) ^ places ≤ x.rational * 10 ^ (places - x.leadingPower) ∧
      x.rational * 10 ^ (places - x.leadingPower) < (10 : Rat) ^ (places + 1) := by
  obtain ⟨hlow, hhigh⟩ := x.leadingPower_bounds h
  have hpos := ten_zpow_pos (places - x.leadingPower)
  have hten : (10 : Rat) ≠ 0 := by norm_num
  constructor
  · calc (10 : Rat) ^ places = 10 ^ x.leadingPower * 10 ^ ((places : Int) - x.leadingPower) := by
          rw [← zpow_add₀ hten, add_sub_cancel, zpow_natCast]
      _ ≤ _ := mul_le_mul_of_nonneg_right hlow hpos.le
  · calc x.rational * 10 ^ (places - x.leadingPower)
        < 10 ^ (x.leadingPower + 1) * 10 ^ ((places : Int) - x.leadingPower) :=
          mul_lt_mul_of_pos_right hhigh hpos
      _ = 10 ^ (places + 1) := by
          rw [← zpow_add₀ hten, ← zpow_natCast]
          congr 1
          push_cast
          ring

def significantDigits (x : Exact) (places : Nat) : Nat :=
  roundHalfEven (x.scaledUp (places - x.leadingPower)).1 (x.scaledUp (places - x.leadingPower)).2

theorem toScientific_eq (places : Nat) :
    x.toScientific places =
      if x.significantDigits places = 10 ^ (places + 1) then
        ⟨⟨10 ^ places, places⟩, x.leadingPower + 1⟩
      else ⟨⟨x.significantDigits places, places⟩, x.leadingPower⟩ := rfl

/-- The significant digits are the nearest to the value at their place. -/
theorem nearestEven_significantDigits (places : Nat) :
    NearestEven (x.significantDigits places) (x.rational * 10 ^ (places - x.leadingPower)) := by
  rw [← scaledUp_rational]
  exact nearestEven_roundHalfEven _ (x.scaledUp_pos _)

theorem significantDigits_zero (h : x.numerator = 0) (places : Nat) :
    x.significantDigits places = 0 := by
  apply Nat.le_zero.mp
  apply (x.nearestEven_significantDigits places).le_of_le
  rw [rational_eq_div, h, Nat.cast_zero, zero_div, zero_mul]

/-- Rounding leaves the first digit at its place, or carries into the next. -/
theorem significantDigits_bounds (h : x.numerator ≠ 0) (places : Nat) :
    10 ^ places ≤ x.significantDigits places ∧
      x.significantDigits places ≤ 10 ^ (places + 1) := by
  have hdigits := x.nearestEven_significantDigits places
  obtain ⟨hlow, hhigh⟩ := x.rational_scaled_bounds h places
  exact ⟨hdigits.ge_of_ge (by exact_mod_cast hlow), hdigits.le_of_le (by exact_mod_cast hhigh.le)⟩

/-- A value that is rounded to significant digits is in scientific notation. -/
theorem standard_toScientific (places : Nat) : (x.toScientific places).Standard := by
  have hpos : (0 : Rat) < 10 ^ places := by positivity
  rw [toScientific_eq, Scientific.Standard]
  by_cases hzero : x.numerator = 0
  · have hne : ¬ (0 = 10 ^ (places + 1)) := (Nat.pow_pos (by decide)).ne
    rw [x.significantDigits_zero hzero, if_neg hne]
    left
    simp [Decimal.rational, leadingPower, hzero]
  · obtain ⟨hlow, hhigh⟩ := x.significantDigits_bounds hzero places
    right
    split
    · simp only [Decimal.rational, Nat.cast_pow, Nat.cast_ofNat, div_self hpos.ne']
      norm_num
    · rename_i hcarry
      have hlt : x.significantDigits places < 10 ^ places * 10 := lt_of_le_of_ne hhigh hcarry
      simp only [Decimal.rational]
      constructor
      · rw [one_le_div hpos]
        exact_mod_cast hlow
      · rw [div_lt_iff₀ hpos, mul_comm]
        exact_mod_cast hlt

/-- One number with its digits in the two notations. -/
theorem rational_mk_eq {digits places k : Nat} {exponent : Int}
    (h : (k : Int) = places - exponent) :
    (Decimal.mk digits k).rational = (Scientific.mk ⟨digits, places⟩ exponent).rational := by
  have hten : (10 : Rat) ≠ 0 := by norm_num
  have hexponent : exponent = places - k := by omega
  rw [Decimal.rational, Scientific.rational, Decimal.rational, hexponent, zpow_sub₀ hten,
    zpow_natCast, zpow_natCast]
  field_simp

/-- Rounded to places a value is the nearest decimal with so many. -/
theorem nearestEven_toPlaces (k : Nat) :
    NearestEven (x.toPlaces k).coefficient (x.rational * 10 ^ k) := by
  have hround := nearestEven_roundHalfEven (x.numerator * 10 ^ k) x.denominator_pos
  rwa [Nat.cast_mul, Nat.cast_pow, Nat.cast_ofNat, mul_div_right_comm, ← rational_eq_div] at hround

/-- A value that is rounded to the places that its rounded exponent leaves is the same number. -/
theorem rational_toPlaces (h : (x.toScientific places).exponent ≤ places) :
    (x.toPlaces (Format.placesAt (places + 1) (x.toScientific places).exponent).toNat).rational =
      (x.toScientific places).rational := by
  obtain ⟨k, hk⟩ : ∃ k : Nat, Format.placesAt (places + 1) (x.toScientific places).exponent = k := by
    apply Int.eq_ofNat_of_zero_le
    rw [Format.placesAt]
    omega
  have hround := x.nearestEven_toPlaces k
  have hdigits := x.nearestEven_significantDigits places
  rw [hk, Int.toNat_natCast]
  rw [toScientific_eq] at hk ⊢
  by_cases hcarry : x.significantDigits places = 10 ^ (places + 1)
  · -- There is one place less than the digits were found at.
    simp only [if_pos hcarry, Format.placesAt] at hk
    have hplace : (places : Int) - x.leadingPower = (k + 1 : Nat) := by omega
    rw [hcarry, hplace, zpow_natCast, pow_succ (10 : Rat), ← mul_assoc] at hdigits
    have hsame : x.toPlaces k = ⟨10 ^ places, k⟩ :=
      congrArg (Decimal.mk · k) (hround.unique hdigits.carry)
    rw [if_pos hcarry, hsame]
    apply rational_mk_eq
    omega
  · simp only [if_neg hcarry, Format.placesAt] at hk
    have hplace : (places : Int) - x.leadingPower = k := by omega
    rw [hplace, zpow_natCast] at hdigits
    have hsame : x.toPlaces k = ⟨x.significantDigits places, k⟩ :=
      congrArg (Decimal.mk · k) (hround.unique hdigits)
    rw [if_neg hcarry, hsame]
    apply rational_mk_eq
    omega

/-! ### The neighbours of a value -/

section Neighbours

variable (n : Nat)

/-- How many whole units of its last digit a value has, when it is written with `n` digits behind
the first. -/
def wholeUnits : Nat :=
  (x.scaledUp (n - x.leadingPower)).1 / (x.scaledUp (n - x.leadingPower)).2

/-- So many of these units. -/
def ofUnits (m : Nat) : Decimal := (Decimal.scaled m (n - x.leadingPower)).trim

theorem rational_ofUnits (m : Nat) :
    (x.ofUnits n m).rational = m * 10 ^ (x.leadingPower - n) := by
  rw [ofUnits, Decimal.rational_trim, Decimal.rational_scaled, neg_sub]

theorem wholeUnits_bounds (h : x.numerator ≠ 0) :
    10 ^ n ≤ x.wholeUnits n ∧ x.wholeUnits n < 10 ^ (n + 1) := by
  obtain ⟨hlow, hhigh⟩ := x.rational_scaled_bounds h n
  have hbelow := x.scaledUp_pos (n - x.leadingPower)
  have hbelowRat : (0 : Rat) < (x.scaledUp (n - x.leadingPower)).2 := by exact_mod_cast hbelow
  rw [← scaledUp_rational, le_div_iff₀ hbelowRat] at hlow
  rw [← scaledUp_rational, div_lt_iff₀ hbelowRat] at hhigh
  constructor
  · exact (Nat.le_div_iff_mul_le hbelow).mpr (by exact_mod_cast hlow)
  · exact (Nat.div_lt_iff_lt_mul hbelow).mpr (by exact_mod_cast hhigh)

/-- With so many digits the units make a number where the value is. -/
theorem rational_ofUnits_bounds {m : Nat} (hlow : 10 ^ n ≤ m) (hhigh : m ≤ 10 ^ (n + 1)) :
    10 ^ x.leadingPower ≤ (x.ofUnits n m).rational ∧
      (x.ofUnits n m).rational ≤ 10 ^ (x.leadingPower + 1) := by
  have hten : (10 : Rat) ≠ 0 := by norm_num
  have hunit := ten_zpow_pos (x.leadingPower - n)
  rw [rational_ofUnits]
  constructor
  · calc (10 : Rat) ^ x.leadingPower = (10 ^ n : Nat) * 10 ^ (x.leadingPower - n) := by
          rw [Nat.cast_pow, ← zpow_natCast, Nat.cast_ofNat, ← zpow_add₀ hten, add_sub_cancel]
      _ ≤ m * 10 ^ (x.leadingPower - n) :=
          mul_le_mul_of_nonneg_right (by exact_mod_cast hlow) hunit.le
  · calc (m : Rat) * 10 ^ (x.leadingPower - n)
        ≤ (10 ^ (n + 1) : Nat) * 10 ^ (x.leadingPower - n) :=
          mul_le_mul_of_nonneg_right (by exact_mod_cast hhigh) hunit.le
      _ = 10 ^ (x.leadingPower + 1) := by
          rw [Nat.cast_pow, ← zpow_natCast, Nat.cast_ofNat, ← zpow_add₀ hten]
          congr 1
          push_cast
          ring

theorem withDigits?_eq :
    x.withDigits? (n + 1) =
      match x.readsBack (x.ofUnits n (x.wholeUnits n)),
        x.readsBack (x.ofUnits n (x.wholeUnits n + 1)) with
      | true, true =>
        some (if 2 * ((x.scaledUp (n - x.leadingPower)).1 % (x.scaledUp (n - x.leadingPower)).2) <
            (x.scaledUp (n - x.leadingPower)).2 then x.ofUnits n (x.wholeUnits n)
          else x.ofUnits n (x.wholeUnits n + 1))
      | true, false => some (x.ofUnits n (x.wholeUnits n))
      | false, true => some (x.ofUnits n (x.wholeUnits n + 1))
      | false, false => none := by
  have hscale : ((n + 1 : Nat) : Int) - 1 - x.leadingPower = n - x.leadingPower := by omega
  simp only [withDigits?, hscale]
  rfl

/-- What is found is one of the neighbours. -/
theorem eq_ofUnits_of_withDigits? {d : Decimal} (h : x.withDigits? (n + 1) = some d) :
    ∃ m, (m = x.wholeUnits n ∨ m = x.wholeUnits n + 1) ∧ d = x.ofUnits n m := by
  rw [withDigits?_eq] at h
  split at h
  · refine ⟨_, ?_, (Option.some.inj h).symm.trans (apply_ite (x.ofUnits n) _ _ _).symm⟩
    split
    · exact .inl rfl
    · exact .inr rfl
  · exact ⟨_, .inl rfl, (Option.some.inj h).symm⟩
  · exact ⟨_, .inr rfl, (Option.some.inj h).symm⟩
  · cases h

end Neighbours

/-! ### The shortest decimal -/

/-- A decimal of so many digits that reads back lies where the value does. -/
theorem rational_of_withDigits? (h : x.numerator ≠ 0) {n : Nat} {d : Decimal}
    (hd : x.withDigits? (n + 1) = some d) :
    10 ^ x.leadingPower ≤ d.rational ∧ d.rational ≤ 10 ^ (x.leadingPower + 1) := by
  obtain ⟨m, hm, rfl⟩ := x.eq_ofUnits_of_withDigits? n hd
  obtain ⟨hlow, hhigh⟩ := x.wholeUnits_bounds n h
  exact x.rational_ofUnits_bounds n (by omega) (by omega)

theorem numerator_ne_zero (h : x.significand ≠ 0) : x.numerator ≠ 0 :=
  Nat.mul_ne_zero h (Nat.pow_pos (by decide)).ne'

theorem rational_shortest (h : x.significand ≠ 0) :
    10 ^ x.leadingPower ≤ x.shortest.rational ∧
      x.shortest.rational ≤ 10 ^ (x.leadingPower + 1) := by
  have hnumerator := x.numerator_ne_zero h
  rw [shortest, if_neg h]
  cases hfound : (List.range 17).findSome? fun n => x.withDigits? (n + 1) with
  | some d =>
      obtain ⟨n, -, hd⟩ := List.exists_of_findSome?_eq_some hfound
      exact x.rational_of_withDigits? hnumerator hd
  | none =>
      obtain ⟨hlow, hhigh⟩ := x.leadingPower_bounds hnumerator
      rw [Option.getD_none, rational_allDigits]
      exact ⟨hlow, hhigh.le⟩

theorem standard_shortest : (Scientific.ofDecimal x.shortest).Standard := by
  apply Scientific.standard_ofDecimal
  intro hzero
  obtain hplaces | hlast := x.trimmed_shortest
  · exact hplaces
  · exact absurd (by rw [hzero]) hlast

/-! ### Exponents of floats -/

/-- Rounded to significant digits in either way, a value keeps its leading power or has the next. -/
theorem exponent_scientificDecimal (precision? : Option Nat) :
    x.leadingPower ≤ (Format.scientificDecimal x precision?).exponent ∧
      (Format.scientificDecimal x precision?).exponent ≤ x.leadingPower + 1 := by
  cases precision? with
  | some p =>
      simp only [Format.scientificDecimal, toScientific_eq]
      split <;> simp
  | none =>
      have hstandard := x.standard_shortest
      simp only [Format.scientificDecimal]
      by_cases hzero : x.significand = 0
      · have hshortest : x.shortest = ⟨0, 0⟩ := by rw [shortest, if_pos hzero]
        have hpower : x.leadingPower = 0 := by simp [leadingPower, numerator, hzero]
        rw [hshortest, hpower]
        decide
      · obtain ⟨hlow, hhigh⟩ := x.rational_shortest hzero
        have hpos : 0 < x.shortest.rational := (ten_zpow_pos _).trans_le hlow
        have hexponent := hstandard.exponent_eq
        rw [Scientific.rational_ofDecimal, decimalExponent, abs_of_pos hpos] at hexponent
        rw [hexponent]
        constructor
        · exact (Int.zpow_le_iff_le_log (by norm_num) hpos).mp (by exact_mod_cast hlow)
        · have hnext := Int.log_mono_right (b := 10) hpos hhigh
          rwa [← Nat.cast_ofNat (R := Rat), Int.log_zpow (by norm_num)] at hnext

/-- The leading power of a float is small. -/
theorem Canonical.leadingPower_bounds {x : Exact} (h : x.Canonical) :
    -1074 ≤ x.leadingPower ∧ x.leadingPower ≤ 1024 := by
  by_cases hzero : x.significand = 0
  · have hpower : x.leadingPower = 0 := by simp [leadingPower, numerator, hzero]
    omega
  · obtain ⟨hlow, hhigh⟩ := x.leadingPower_bounds (x.numerator_ne_zero hzero)
    have hleast : (10 : Rat) ^ (-1074 : Int) ≤ x.rational := by
      have hone : (1 : Rat) ≤ x.significand := by
        exact_mod_cast Nat.one_le_iff_ne_zero.mpr hzero
      calc (10 : Rat) ^ (-1074 : Int) ≤ 2 ^ (-1074 : Int) := by
            rw [zpow_neg, zpow_neg]
            apply inv_anti₀ (by positivity)
            exact zpow_le_zpow_left₀ (by norm_num) (by norm_num) (by norm_num)
        _ ≤ 2 ^ x.exponent := zpow_le_zpow_right₀ (by norm_num) h.least
        _ ≤ x.rational := le_mul_of_one_le_left (by positivity) hone
    have hgreatest : x.rational < (10 : Rat) ^ (1024 : Int) := by
      calc x.rational < 2 ^ (53 + x.exponent) := rational_lt h
        _ ≤ 2 ^ (1024 : Int) := zpow_le_zpow_right₀ (by norm_num) (by have := h.greatest; omega)
        _ ≤ 10 ^ (1024 : Int) := zpow_le_zpow_left₀ (by norm_num) (by norm_num) (by norm_num)
    have hbelow := lt_of_ten_zpow hleast hhigh
    have habove := lt_of_ten_zpow hlow hgreatest
    omega

end Exact

end Reckoner
