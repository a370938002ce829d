import Reckoner.Decimal
import Reckoner.Proofs.NearestEven

/-!
# The float that a decimal is read as

A decimal is read by one division, or one product, of exact numbers, whatever the count of its
digits and of its places. So the float is the nearest one to the number that the decimal stands for,
and the bits of floats are in the order of these numbers: two decimals of one number are read as one
float, and a decimal between two that are read as one float is read as that float too.
-/

-- Powers are those of the core library.
attribute [instance(2000), default_instance(20000)] instPowNat

namespace Reckoner

open Float.Model Float.Model.UnpackedFloat

/-! ### Products and quotients -/

section Operations

variable {m m' : Nat} {e e' t : Int}

/-- A quotient is computed at an exponent from which it can be rounded. -/
theorem divCore_represents (hm : 0 < m) (hm' : 0 < m')
    (h : HasExponent (magnitude m e / magnitude m' e') t) :
    ∃ n u accuracy, divCore Format.binary64 m e m' e' = (n, u, accuracy) ∧ u ≤ t ∧
      Represents (.ofMantissaAndAccuracy n accuracy) (magnitude m e / magnitude m' e' / 2 ^ u) := by
  let u := min (e - e')
    (Format.binary64.targetExponent (totalExponent m e - totalExponent m' e'))
  have hu : u ≤ e - e' := min_le_left _ _
  have hle : u ≤ t := by
    refine (min_le_right _ _).trans ?_
    have hless : (2 : Rat) ^ (totalExponent m e - 1 - totalExponent m' e') ≤
        magnitude m e / magnitude m' e' := by
      rw [zpow_sub₀ two_ne_zero]
      exact div_le_div₀ (magnitude_pos hm.ne' e).le (magnitude_bounds hm.ne' e).1
        (magnitude_pos hm'.ne' e') (magnitude_bounds hm'.ne' e').2.le
    have := lt_of_two_zpow_le_of_lt hless h.high
    have := h.least
    rw [targetExponent_eq]
    omega
  refine ⟨_, u, _, rfl, hle, ?_⟩
  have hshifted : magnitude m e / magnitude m' e' / 2 ^ u =
      ((m <<< (e - e' - u).toNat : Nat) : Rat) / m' := by
    have hexponent : e = (e - e' - u).toNat + (e' + u) := by omega
    have hpos : (magnitude m' e') ≠ 0 := (magnitude_pos hm'.ne' e').ne'
    have hm'Rat : (m' : Rat) ≠ 0 := by exact_mod_cast hm'.ne'
    rw [Nat.shiftLeft_eq, div_div, div_eq_div_iff (by positivity) hm'Rat]
    conv_lhs => rw [hexponent, ← magnitude_mul_pow]
    rw [magnitude, magnitude, zpow_add₀ two_ne_zero]
    ring
  rw [hshifted]
  exact Represents.quotient _ hm'

/-- A quotient is rounded to the nearest float. -/
theorem div_eq (hm : 0 < m) (hm' : 0 < m')
    (h : HasExponent (magnitude m e / magnitude m' e') t) :
    ∃ r, NearestEven r (magnitude m e / magnitude m' e' / 2 ^ t) ∧
      UnpackedFloat.div Format.binary64 (.finite .positive m e hm) (.finite .positive m' e' hm') =
        (carried r t).unpacked := by
  obtain ⟨n, u, accuracy, hcore, hle, hrep⟩ := divCore_represents hm hm' h
  rw [UnpackedFloat.div, hcore]
  exact roundWithAccuracy_eq h hle hrep

/-- A product is rounded to the nearest float. -/
theorem mul_eq (hm : 0 < m) (hm' : 0 < m') (h : HasExponent (magnitude (m * m') (e + e')) t)
    (hle : e + e' ≤ t) :
    ∃ r, NearestEven r (magnitude (m * m') (e + e') / 2 ^ t) ∧
      UnpackedFloat.mul Format.binary64 (.finite .positive m e hm) (.finite .positive m' e' hm') =
        (carried r t).unpacked := by
  have hvalue : magnitude (m * m') (e + e') / 2 ^ (e + e') = (m * m' : Nat) :=
    mul_div_cancel_right₀ _ (by positivity)
  rw [UnpackedFloat.mul]
  apply roundWithAccuracy_eq h hle
  rw [hvalue]
  exact Represents.exact _

end Operations

/-! ### How decimals are read -/

namespace Exact

variable {x : Exact} {d : Decimal}

/-- Each entry of the table of powers of ten, cleared of denominators. -/
theorem checked_powersOfTen : ∀ p : Fin Float.exactlyRepresentablePowersOfTen.size,
    (ofFloat? Float.exactlyRepresentablePowersOfTen[p]).any (fun y =>
      !y.negative && y.significand != 0 && decide (-52 ≤ y.exponent) &&
        y.significand * 2 ^ (y.exponent + 52).toNat == 10 ^ p.val * 2 ^ 52) = true := by
  decide +kernel

/-- The table of powers of ten is exact. -/
theorem exists_powerOfTen {p : Nat} (hp : p < Float.exactlyRepresentablePowersOfTen.size) :
    ∃ y : Exact, ofFloat? Float.exactlyRepresentablePowersOfTen[p] = some y ∧
      y.negative = false ∧ y.significand ≠ 0 ∧ y.rational = 10 ^ p := by
  have hchecked := checked_powersOfTen ⟨p, hp⟩
  rw [Fin.getElem_fin] at hchecked
  cases hy : ofFloat? Float.exactlyRepresentablePowersOfTen[p] with
  | none => simp [hy] at hchecked
  | some y =>
      simp only [hy, Option.any_some, Bool.and_eq_true, Bool.not_eq_true', bne_iff_ne, beq_iff_eq,
        decide_eq_true_eq] at hchecked
      obtain ⟨⟨⟨hnegative, hpos⟩, hleast⟩, hscaled⟩ := hchecked
      refine ⟨y, rfl, hnegative, hpos, ?_⟩
      have hexponent : ((y.exponent + 52).toNat : Int) + -52 = y.exponent := by omega
      calc y.rational
          = magnitude (y.significand * 2 ^ (y.exponent + 52).toNat) (-52) := by
            rw [magnitude_mul_pow, hexponent, rational]
        _ = magnitude (10 ^ p * 2 ^ 52) (-52) := by rw [hscaled]
        _ = 10 ^ p := by
            rw [magnitude_mul_pow]
            simp

theorem sign_of_not_negative (hnegative : x.negative = false) : x.sign = .positive := by
  rw [sign, hnegative]
  rfl

/-- A decimal of few digits is read as a quotient of two floats. -/
theorem exists_toFloat_of_small (hsmall : d.coefficient < 2 ^ 53 ∧ d.places ≤ 22) :
    ∃ y : Exact, y.negative = false ∧ y.significand ≠ 0 ∧ y.rational = 10 ^ d.places ∧
      d.toFloat = .ofModel (.pack (UnpackedFloat.div Format.binary64
        (ofNat d.coefficient).unpacked y.unpacked)) := by
  have hp : d.places < Float.exactlyRepresentablePowersOfTen.size := Nat.lt_succ_of_le hsmall.2
  obtain ⟨y, hy, hynegative, hypos, hyrational⟩ := exists_powerOfTen hp
  have hquotient : d.toFloat = d.coefficient.toUInt64.toFloat /
      Float.exactlyRepresentablePowersOfTen[d.places] := by
    rw [Decimal.toFloat, Float.ofScientific, dif_pos hsmall]
    rfl
  refine ⟨y, hynegative, hypos, hyrational, ?_⟩
  rw [hquotient, ← unpack_toFloat hsmall.1, ← unpack_of_ofFloat? hy]
  rfl

/-- A decimal of many digits is read by the exact quotient, or product, of two whole numbers. -/
theorem toFloat_of_large (hlarge : ¬(d.coefficient < 2 ^ 53 ∧ d.places ≤ 22)) :
    d.toFloat = .ofModel (.pack (UnpackedFloat.ofScientific Format.binary64 d.coefficient
      (-(d.places : Int)))) := by
  have hscale : Int.negOfNat d.places = -(d.places : Int) := Int.negOfNat_eq
  rw [Decimal.toFloat, Float.ofScientific, dif_neg hlarge, ← hscale]
  rfl

/-- A decimal with places is read as a quotient, unless it is far too small for a float. -/
theorem ofScientific_neg {c p : Nat} (hc : c ≠ 0) (hp : p ≠ 0) (hle : (p : Int) ≤ c.log2 + 2048) :
    UnpackedFloat.ofScientific Format.binary64 c (-(p : Int)) =
      UnpackedFloat.div Format.binary64 (.finite .positive c 0 (Nat.pos_of_ne_zero hc))
        (.finite .positive (10 ^ p) 0 (Nat.pow_pos (by decide))) := by
  have hbits : (2 : Int) ^ Format.binary64.exponentBits = 2048 := rfl
  have hplaces : (- -(p : Int)).toNat = p := by omega
  rw [UnpackedFloat.ofScientific, dif_neg hc, hbits, if_neg (by omega), if_neg (by omega),
    if_neg (by omega)]
  simp only [hplaces]

/-- A decimal without places is read as a product with one. -/
theorem ofScientific_zero {c : Nat} (hc : c ≠ 0) :
    UnpackedFloat.ofScientific Format.binary64 c 0 =
      UnpackedFloat.mul Format.binary64
        (.finite .positive (c * 2 ^ 53) (-53)
          (Nat.mul_pos (Nat.pos_of_ne_zero hc) (Nat.two_pow_pos _)))
        (.finite .positive 1 0 Nat.one_pos) := by
  have hbits : (2 : Int) ^ Format.binary64.exponentBits = 2048 := rfl
  rw [UnpackedFloat.ofScientific, dif_neg hc, hbits, if_neg (by omega), if_neg (by omega),
    if_pos (by omega)]
  simp only [Nat.shiftLeft_eq]
  rfl

end Exact

namespace Decimal

def rational (d : Decimal) : Rat := d.coefficient / 10 ^ d.places

variable {d d' : Decimal} {t : Int}

theorem rational_nonneg (d : Decimal) : 0 ≤ d.rational := by
  rw [rational]
  positivity

theorem rational_eq_magnitude (d : Decimal) :
    d.rational = magnitude d.coefficient 0 / magnitude (10 ^ d.places) 0 := by
  rw [rational, magnitude_zero, magnitude_zero]
  push_cast
  rfl

theorem rational_eq_zero (h : d.coefficient = 0) : d.rational = 0 := by
  rw [rational, h, Nat.cast_zero, zero_div]

/-- What is less than half of the least float is rounded to zero. -/
theorem exists_carried_zero {q : Rat} (hnonneg : 0 ≤ q) (hlt : q < 2 ^ (-1075 : Int))
    (h : HasExponent q t) :
    ∃ r, NearestEven r (q / 2 ^ t) ∧ UnpackedFloat.zero .positive = (carried r t).unpacked := by
  obtain rfl : t = -1074 := by
    refine h.low.resolve_left fun hlarge => ?_
    have := lt_of_two_zpow_le_of_lt hlarge hlt
    have := h.least
    omega
  have hhalf : (2 : Rat) ^ (-1075 : Int) = 1 / 2 * 2 ^ (-1074 : Int) := by
    rw [show (-1075 : Int) = -1 + -1074 by norm_num, zpow_add₀ two_ne_zero]
    norm_num
  refine ⟨0, NearestEven.of_lower ?_ ?_, rfl⟩
  · rw [Nat.cast_zero]
    positivity
  · rw [Nat.cast_zero, zero_add, div_lt_iff₀ (by positivity), ← hhalf]
    exact hlt

theorem exists_toFloat_zero (hzero : d.coefficient = 0) (h : HasExponent d.rational t) :
    ∃ r, NearestEven r (d.rational / 2 ^ t) ∧
      UnpackedFloat.zero .positive = (carried r t).unpacked := by
  apply exists_carried_zero d.rational_nonneg _ h
  rw [rational_eq_zero hzero]
  positivity

/-- Few digits are read by a division of floats. -/
theorem exists_toFloat_of_small (hsmall : d.coefficient < 2 ^ 53 ∧ d.places ≤ 22)
    (h : HasExponent d.rational t) :
    ∃ r, NearestEven r (d.rational / 2 ^ t) ∧
      d.toFloat = .ofModel (.pack (carried r t).unpacked) := by
  obtain ⟨y, hnegative, hypos, hyrational, hread⟩ := Exact.exists_toFloat_of_small hsmall
  have hy : y.unpacked =
      .finite .positive y.significand y.exponent (Nat.pos_of_ne_zero hypos) := by
    rw [Exact.unpacked, dif_neg hypos, Exact.sign_of_not_negative hnegative]
  rw [hread, hy]
  by_cases hzero : d.coefficient = 0
  · obtain ⟨r, hr, hcarried⟩ := exists_toFloat_zero hzero h
    refine ⟨r, hr, ?_⟩
    rw [← hcarried, hzero]
    rfl
  · have hpos := Exact.significand_ofNat_ne_zero hzero
    have hvalue : d.rational = magnitude (Exact.ofNat d.coefficient).significand
        (Exact.ofNat d.coefficient).exponent / magnitude y.significand y.exponent := by
      rw [← Exact.rational, ← Exact.rational, hyrational, Exact.rational_ofNat hsmall.1, rational]
    rw [hvalue] at h ⊢
    obtain ⟨r, hr, hdiv⟩ := div_eq (Nat.pos_of_ne_zero hpos) (Nat.pos_of_ne_zero hypos) h
    exact ⟨r, hr, by rw [Exact.unpacked, dif_neg hpos, Exact.sign_ofNat, hdiv]⟩

/-- A decimal without places is at least one, or zero. -/
theorem exists_ofScientific_zero (hzero : d.coefficient ≠ 0) (hplaces : d.places = 0)
    (h : HasExponent d.rational t) :
    ∃ r, NearestEven r (d.rational / 2 ^ t) ∧
      UnpackedFloat.ofScientific Format.binary64 d.coefficient (-(d.places : Int)) =
        (carried r t).unpacked := by
  have hvalue : d.rational = magnitude (d.coefficient * 2 ^ 53 * 1) (-53 + 0) := by
    rw [Nat.mul_one, magnitude_mul_pow, rational, hplaces]
    simp
  have hone : (2 : Rat) ^ (0 : Int) ≤ d.rational := by
    rw [rational, hplaces, zpow_zero, pow_zero, div_one]
    exact_mod_cast Nat.one_le_iff_ne_zero.mpr hzero
  have hle := lt_of_two_zpow_le_of_lt hone h.high
  rw [hplaces, Nat.cast_zero, neg_zero, Exact.ofScientific_zero hzero]
  rw [hvalue] at h ⊢
  exact mul_eq _ _ h (by omega)

/-- A decimal with places is a quotient, unless it has so many that it is tiny. -/
theorem exists_ofScientific_neg (hzero : d.coefficient ≠ 0) (hplaces : d.places ≠ 0)
    (h : HasExponent d.rational t) :
    ∃ r, NearestEven r (d.rational / 2 ^ t) ∧
      UnpackedFloat.ofScientific Format.binary64 d.coefficient (-(d.places : Int)) =
        (carried r t).unpacked := by
  obtain hfew | hmany := le_or_gt (d.places : Int) (d.coefficient.log2 + 2048)
  · rw [Exact.ofScientific_neg hzero hplaces hfew]
    rw [rational_eq_magnitude] at h ⊢
    exact div_eq _ _ h
  · have htiny : d.rational < 2 ^ (-1075 : Int) := by
      have hpower : (2 : Rat) ^ d.places ≤ 10 ^ d.places := by gcongr; norm_num
      have hcoefficient := (magnitude_bounds hzero 0).2
      rw [magnitude_zero] at hcoefficient
      rw [rational, div_lt_iff₀ (by positivity)]
      calc (d.coefficient : Rat) < 2 ^ totalExponent d.coefficient 0 := hcoefficient
        _ ≤ 2 ^ ((-1075 : Int) + d.places) := by
            apply zpow_le_zpow_right₀ one_le_two
            rw [totalExponent]
            omega
        _ = 2 ^ (-1075 : Int) * 2 ^ d.places := by rw [zpow_add₀ two_ne_zero, zpow_natCast]
        _ ≤ 2 ^ (-1075 : Int) * 10 ^ d.places := by gcongr
    have hscientific : UnpackedFloat.ofScientific Format.binary64 d.coefficient
        (-(d.places : Int)) = .zero .positive := by
      have hbits : (2 : Int) ^ Format.binary64.exponentBits = 2048 := rfl
      rw [UnpackedFloat.ofScientific, dif_neg hzero, hbits, if_neg (by omega), if_pos (by omega)]
    rw [hscientific]
    exact exists_carried_zero d.rational_nonneg htiny h

/-- A decimal is read as the float nearest to it. -/
theorem exists_toFloat (h : HasExponent d.rational t) :
    ∃ r, NearestEven r (d.rational / 2 ^ t) ∧
      d.toFloat = .ofModel (.pack (carried r t).unpacked) := by
  by_cases hsmall : d.coefficient < 2 ^ 53 ∧ d.places ≤ 22
  · exact exists_toFloat_of_small hsmall h
  · rw [Exact.toFloat_of_large hsmall]
    have hscientific : ∃ r, NearestEven r (d.rational / 2 ^ t) ∧
        UnpackedFloat.ofScientific Format.binary64 d.coefficient (-(d.places : Int)) =
          (carried r t).unpacked := by
      by_cases hzero : d.coefficient = 0
      · rw [UnpackedFloat.ofScientific, dif_pos hzero]
        exact exists_toFloat_zero hzero h
      · by_cases hplaces : d.places = 0
        · exact exists_ofScientific_zero hzero hplaces h
        · exact exists_ofScientific_neg hzero hplaces h
    obtain ⟨r, hr, hvalue⟩ := hscientific
    exact ⟨r, hr, by rw [hvalue]⟩

def bits (d : Decimal) : Nat := d.toFloat.toBits.toNat

theorem bits_eq (h : HasExponent d.rational t) :
    ∃ r, NearestEven r (d.rational / 2 ^ t) ∧ r ≤ 2 ^ 53 ∧ (2 ^ 52 ≤ r ∨ t = -1074) ∧
      d.bits = min ((t + 1074).toNat * 2 ^ 52 + r) (2047 * 2 ^ 52) := by
  obtain ⟨r, hr, hread⟩ := exists_toFloat h
  obtain ⟨hle, hfull⟩ := h.significand_bounds hr
  refine ⟨r, hr, hle, hfull, ?_⟩
  rw [bits, hread]
  exact toNat_pack_carried h.least hle hfull

/-- The bits are in the order of the numbers. -/
theorem bits_mono (hle : d.rational ≤ d'.rational) : d.bits ≤ d'.bits := by
  obtain ⟨t, h⟩ := exists_hasExponent d.rational_nonneg
  obtain ⟨t', h'⟩ := exists_hasExponent d'.rational_nonneg
  obtain ⟨r, hr, hr53, -, hbits⟩ := bits_eq h
  obtain ⟨r', hr', -, hfull, hbits'⟩ := bits_eq h'
  have hexponents : t ≤ t' := by
    obtain hlow | hleast := h.low
    · have := lt_of_two_zpow_le_of_lt hlow (hle.trans_lt h'.high)
      omega
    · exact hleast ▸ h'.least
  have hleast := h.least
  obtain rfl | hless := hexponents.eq_or_lt
  · have hsignificands : r ≤ r' := hr.mono hr' (by gcongr)
    omega
  · omega

/-- Two decimals of one number are read as one float. -/
theorem toFloat_congr (h : d.rational = d'.rational) : d.toFloat = d'.toFloat := by
  have hbits : d.bits = d'.bits := Nat.le_antisymm (bits_mono h.le) (bits_mono h.ge)
  exact Float.toBits_inj.mp (UInt64.toNat_inj.mp hbits)

/-- A decimal between two that are read as one float is read as that float. -/
theorem toFloat_eq_of_between {low high : Decimal} {v : Float} (hlow : low.toFloat = v)
    (hhigh : high.toFloat = v) (hle : low.rational ≤ d.rational)
    (hge : d.rational ≤ high.rational) : d.toFloat = v := by
  have habove := bits_mono hle
  have hbelow := bits_mono hge
  rw [bits, hlow] at habove
  rw [bits, bits, hhigh] at hbelow
  exact Float.toBits_inj.mp (UInt64.toNat_inj.mp (Nat.le_antisymm hbelow habove))

end Decimal

/-! ### Decimals near a value -/

namespace Exact

variable {x : Exact} {v : Float} {d : Decimal}

/-- The bits of a float tell its value. -/
theorem ofFloat?_of_toBits (h : x.Canonical) (hnegative : x.negative = false)
    (hbits : v.toBits.toNat = (x.exponent + 1074).toNat * 2 ^ 52 + x.significand) :
    ofFloat? v = some x := by
  have hpacked : (Float.ofModel (.pack x.unpacked)).toBits.toNat =
      (x.exponent + 1074).toNat * 2 ^ 52 + x.significand := by
    have hzero : x.sign.toBitVec.toNat = 0 := by
      rw [toNat_toBitVec_sign, hnegative]
      rfl
    have hpack := toNat_pack h
    rw [hzero, Nat.zero_mul, Nat.zero_add] at hpack
    exact hpack
  have hv : v = .ofModel (.pack x.unpacked) :=
    Float.toBits_inj.mp (UInt64.toNat_inj.mp (hbits.trans hpacked.symm))
  rw [hv, ofFloat?_pack h]

/-- A number near a value has the exponent of the value or, just below a power of two, the exponent
before. -/
theorem exponent_of_near {w : Rat} {t : Int} (h : x.Canonical)
    (hnear : |w - x.significand| < x.significand / 2 ^ 54)
    (ht : HasExponent (w * 2 ^ x.exponent) t) :
    t = x.exponent ∨ t = x.exponent - 1 ∧ x.significand = 2 ^ 52 := by
  obtain ⟨hlow, hhigh⟩ := abs_lt.mp hnear
  have hlt {k : Int} (hk : t + 53 ≤ x.exponent + k) : w < 2 ^ k := by
    have hbelow := ht.high.trans_le (zpow_le_zpow_right₀ one_le_two hk)
    rw [zpow_add₀ two_ne_zero, mul_comm] at hbelow
    exact lt_of_mul_lt_mul_left hbelow (by positivity)
  have hleast := h.least
  obtain hless | hsame | hmore := lt_trichotomy t x.exponent
  · right
    have hfull : 2 ^ 52 ≤ x.significand := by
      have := ht.least
      have := h.full
      omega
    have hfullRat : (2 ^ 52 : Rat) ≤ x.significand := by exact_mod_cast hfull
    constructor
    · by_contra hne
      have hw := hlt (k := 51) (by omega)
      rw [zpow_ofNat] at hw
      linarith
    · have hw := hlt (k := 52) (by omega)
      rw [zpow_ofNat] at hw
      have hsmall : (x.significand : Rat) < 2 ^ 52 + 1 := by linarith
      have : x.significand < 2 ^ 52 + 1 := by exact_mod_cast hsmall
      omega
  · exact .inl hsame
  · -- The number would have one bit more than the value.
    have hlarge := ht.low.resolve_right (by omega)
    have hw : (2 : Rat) ^ (53 : Int) ≤ w := by
      refine le_of_mul_le_mul_right ?_ (show (0 : Rat) < 2 ^ x.exponent by positivity)
      rw [← zpow_add₀ two_ne_zero]
      exact (zpow_le_zpow_right₀ one_le_two (by omega)).trans hlarge
    have hsignificand : (x.significand : Rat) + 1 ≤ 2 ^ 53 := by exact_mod_cast h.lt
    rw [zpow_ofNat] at hw
    linarith

/-- A number near a value is rounded to the significand of the value or, with the exponent before,
to twice the least significand of 53 bits. -/
theorem significand_of_near {w : Rat} {t : Int} {r : Nat} (h : x.Canonical)
    (hnear : |w - x.significand| < x.significand / 2 ^ 54)
    (ht : HasExponent (w * 2 ^ x.exponent) t)
    (hr : NearestEven r (w * 2 ^ x.exponent / 2 ^ t)) :
    t = x.exponent ∧ r = x.significand ∨
      t = x.exponent - 1 ∧ r = 2 ^ 53 ∧ x.significand = 2 ^ 52 := by
  obtain rfl | ⟨hexponent, hsmall⟩ := exponent_of_near h hnear ht
  · refine .inl ⟨rfl, ?_⟩
    have hsignificand : (x.significand : Rat) + 1 ≤ 2 ^ 53 := by exact_mod_cast h.lt
    rw [mul_div_cancel_right₀ _ (by positivity)] at hr
    apply hr.unique
    left
    linarith
  · refine .inr ⟨hexponent, ?_, hsmall⟩
    have hdouble : w * 2 ^ x.exponent / 2 ^ t = 2 * w := by
      have hsucc : x.exponent = 1 + t := by omega
      rw [hsucc, zpow_add₀ two_ne_zero, zpow_one]
      field_simp
    obtain ⟨hlow, hhigh⟩ := abs_lt.mp hnear
    rw [hsmall] at hlow hhigh
    rw [hdouble] at hr
    apply hr.unique
    left
    push_cast at hlow hhigh ⊢
    rw [abs_lt]
    constructor <;> linarith

/-- Both ways the significand has the position of the value among all floats. -/
theorem position_of_near {q : Rat} {t : Int} {r : Nat} (h : x.Canonical)
    (hnear : |q - x.rational| < x.rational / 2 ^ 54)
    (ht : HasExponent q t) (hr : NearestEven r (q / 2 ^ t)) :
    (t + 1074).toNat * 2 ^ 52 + r = (x.exponent + 1074).toNat * 2 ^ 52 + x.significand := by
  have hpos : (0 : Rat) < 2 ^ x.exponent := by positivity
  obtain ⟨w, rfl⟩ : ∃ w, q = w * 2 ^ x.exponent := ⟨q / 2 ^ x.exponent, by field_simp⟩
  have hscaled : |w - x.significand| < x.significand / 2 ^ 54 := by
    rw [rational, magnitude, ← sub_mul, abs_mul, abs_of_pos hpos, mul_div_right_comm] at hnear
    exact lt_of_mul_lt_mul_right hnear hpos.le
  have hleast := ht.least
  obtain ⟨rfl, rfl⟩ | ⟨hexponent, rfl, hsignificand⟩ := significand_of_near h hscaled ht hr
  · rfl
  · omega

/-- What is as near to a value as a quarter of the least distance between floats is read as the
value. -/
theorem ofFloat?_toFloat_of_near (h : x.Canonical) (hnegative : x.negative = false)
    (hnear : |d.rational - x.rational| < x.rational / 2 ^ 54) : ofFloat? d.toFloat = some x := by
  obtain ⟨t, ht⟩ := exists_hasExponent d.rational_nonneg
  obtain ⟨r, hr, -, -, hbits⟩ := Decimal.bits_eq ht
  have hposition := position_of_near h hnear ht hr
  have := h.greatest
  have := h.lt
  apply ofFloat?_of_toBits h hnegative
  rw [← hposition, ← Decimal.bits, hbits]
  apply min_eq_left
  omega

/-- A decimal that has the value of a float is read as that float. -/
theorem ofFloat?_toFloat (h : x.Canonical) (hnegative : x.negative = false)
    (hpos : x.significand ≠ 0) (heq : d.rational = x.rational) : ofFloat? d.toFloat = some x := by
  have hvalue : 0 < x.rational := magnitude_pos hpos x.exponent
  apply ofFloat?_toFloat_of_near h hnegative
  rw [heq, sub_self, abs_zero]
  positivity

end Exact

end Reckoner
