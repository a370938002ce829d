import Reckoner.Proofs.BitPattern
import Reckoner.Proofs.RealMode
import Reckoner.Proofs.ShortestDigits

/-!
# The scientific mode

The text of a finite float in the scientific mode is a mantissa with one digit before the point and
a power of ten with its sign. With a precision the mantissa has so many digits behind the point, and
the text denotes the value rounded to them. Without one it has the fewest digits that read back.
-/

-- Powers are those of the core library.
attribute [instance(2000), default_instance(20000)] instPowNat

namespace Reckoner

/-! ### Reading texts as floats -/

namespace Notation

/-- The decimal that digits denote, with at most one point among them. -/
def decimalLiteral? (text : List Char) : Option Decimal :=
  if (Numeral.front text).chars = text then (Numeral.front text).decimal? else none

/-- The decimal that a text without a sign denotes; a power of ten moves the point. -/
def decimal? (text : List Char) : Option Decimal :=
  match text.dropWhile (· != 'e') with
  | [] => decimalLiteral? text
  | _ :: exponent =>
    match decimalLiteral? (text.takeWhile (· != 'e')), Text.integer? exponent with
    | some d, some power => some (Decimal.scaled d.coefficient (d.places - power))
    | _, _ => none

def float? : List Char → Option Float
  | '-' :: text => (decimal? text).map fun d => -d.toFloat
  | text => (decimal? text).map Decimal.toFloat

theorem literal?_eq_map (text : List Char) :
    literal? text = (decimalLiteral? text).map Decimal.rational := by
  rw [literal?, decimalLiteral?]
  split <;> rfl

theorem abs_withSign_sub (negative : Bool) (q r : Rat) :
    |withSign negative q - withSign negative r| = |q - r| := by
  cases negative with
  | false => rfl
  | true =>
      have hneg : withSign true q - withSign true r = -(q - r) := (neg_sub_neg q r).trans (neg_sub q r).symm
      rw [hneg, abs_neg]

/-- The number that a text denotes is that of its decimal. -/
theorem magnitude?_eq_map (text : List Char) :
    magnitude? text = (decimal? text).map Decimal.rational := by
  have hten : (10 : Rat) ≠ 0 := by norm_num
  cases hdrop : text.dropWhile (· != 'e') with
  | nil => simp only [magnitude?, decimal?, hdrop, literal?_eq_map]
  | cons e exponent =>
      simp only [magnitude?, decimal?, hdrop, literal?_eq_map]
      cases decimalLiteral? (text.takeWhile (· != 'e')) with
      | none => rfl
      | some d =>
          cases Text.integer? exponent with
          | none => rfl
          | some power =>
              have hmoved : (Decimal.scaled d.coefficient (d.places - power)).rational =
                  d.rational * 10 ^ power := by
                rw [Decimal.rational_scaled, neg_sub, zpow_sub₀ hten, zpow_natCast,
                  Decimal.rational]
                ring
              simp only [Option.map_some, hmoved]

theorem float?_sign {text : List Char} (h : ∀ c ∈ text.head?, c ≠ '-') (negative : Bool) :
    float? (Format.sign negative ++ text) =
      (decimal? text).map fun d => Evaluation.signed negative d.toFloat := by
  cases negative with
  | true => rfl
  | false =>
      have hplain : float? text = (decimal? text).map Decimal.toFloat := by
        rw [float?.eq_def]
        split
        · simp at h
        · rfl
      exact hplain

/-- Scientific notation of the value of a float is read as the float. -/
theorem float?_scientific (negative : Bool) {s : Scientific} {d : Decimal}
    (h : s.rational = d.rational) :
    float? (Format.sign negative ++ s.text) = some (Evaluation.signed negative d.toFloat) := by
  have hhead : ∀ c ∈ s.text.head?, c ≠ '-' := ne_minus_of_mem_head? s.mantissa _
  have hnumber := magnitude?_scientific s
  rw [magnitude?_eq_map] at hnumber
  obtain ⟨read, hread, hrational⟩ := Option.map_eq_some_iff.mp hnumber
  rw [float?_sign hhead, hread, Option.map_some, Decimal.toFloat_congr (hrational.trans h)]

/-- A mantissa less than ten is one digit and its fraction. -/
theorem exists_mantissa {d : Decimal} (hlt : d.rational < 10) :
    ∃ first fraction, d.text = first :: (if fraction = [] then [] else '.' :: fraction) ∧
      first.isDigit = true ∧ (∀ c ∈ fraction, c.isDigit = true) ∧ fraction.length = d.places ∧
      (first = '0' ↔ d.rational < 1) := by
  have hpower : (0 : Rat) < 10 ^ d.places := by positivity
  have hwhole : d.coefficient / 10 ^ d.places < 10 := by
    rw [Decimal.rational, div_lt_iff₀ hpower] at hlt
    rw [Nat.div_lt_iff_lt_mul (Nat.pow_pos (by decide))]
    exact_mod_cast hlt
  have hdigits := Nat.toDigits_of_lt_base hwhole
  have hfirst : (d.coefficient / 10 ^ d.places).digitChar.isDigit = true := by
    rw [Nat.isDigit_digitChar]
    exact decide_eq_true hwhole
  have hzero : (d.coefficient / 10 ^ d.places).digitChar = '0' ↔ d.rational < 1 := by
    have hcast : (d.coefficient : Rat) < 10 ^ d.places ↔ d.coefficient < 10 ^ d.places := by
      exact_mod_cast Iff.rfl
    rw [Decimal.rational, div_lt_one hpower, hcast]
    constructor
    · intro hchar
      by_contra hlarge
      have hne : d.coefficient / 10 ^ d.places ≠ 0 :=
        (Nat.div_pos (Nat.le_of_not_lt hlarge) (Nat.pow_pos (by decide))).ne'
      exact Decimal.digitChar_ne_zero hwhole hne hchar
    · intro hsmall
      rw [Nat.div_eq_of_lt hsmall]
      rfl
  by_cases hplaces : d.places = 0
  · refine ⟨_, [], ?_, hfirst, by simp, hplaces.symm, hzero⟩
    rw [Decimal.text, hdigits, if_pos hplaces]
    rfl
  · have hlength := d.length_fraction hplaces
    refine ⟨_, Text.paddedDigits 10 d.places (d.coefficient % 10 ^ d.places), ?_, hfirst,
      fun c hc => Decimal.isDigit_of_mem_paddedDigits hc, hlength, hzero⟩
    have hne : Text.paddedDigits 10 d.places (d.coefficient % 10 ^ d.places) ≠ [] := by
      intro hnil
      rw [hnil] at hlength
      exact hplaces hlength.symm
    rw [Decimal.text, hdigits, if_neg hplaces, if_neg hne]
    rfl

/-- The exponent is written with two digits, or with as many more as it needs. -/
theorem exists_exponent (exponent : Int) :
    ∃ digits, exponentText exponent = 'e' :: (if exponent < 0 then '-' else '+') :: digits ∧
      (∀ c ∈ digits, c.isDigit = true) ∧ Text.numberOf 10 digits = exponent.natAbs ∧
      digits.length = max 2 (Nat.log 10 exponent.natAbs + 1) := by
  refine ⟨_, rfl, fun c hc => Decimal.isDigit_of_mem_paddedDigits hc, ?_, ?_⟩
  · exact Text.numberOf_paddedDigits (by decide) (by decide) 2 _
  · rw [Text.length_paddedDigits, Text.length_toDigits (by decide)]

/-- A text in scientific notation: a sign if the number is negative, one digit, a point if there is
a fraction, and behind an `e` the exponent, which always has its sign, and two digits or as many more
as it needs. -/
structure IsScientific (text : List Char) (negative : Bool) (first : Char) (fraction : List Char)
    (exponent : Int) (digits : List Char) : Prop where
  text_eq : text = Format.sign negative ++ (first ::
    (if fraction = [] then [] else '.' :: fraction) ++
      'e' :: (if exponent < 0 then '-' else '+') :: digits)
  isDigit_first : first.isDigit = true
  isDigit_fraction : ∀ c ∈ fraction, c.isDigit = true
  isDigit_exponent : ∀ c ∈ digits, c.isDigit = true
  number_exponent : Text.numberOf 10 digits = exponent.natAbs
  length_exponent : digits.length = max 2 (Nat.log 10 exponent.natAbs + 1)

/-- With a mantissa less than ten a number is written in scientific notation. -/
theorem exists_isScientific {s : Scientific} (hlt : s.mantissa.rational < 10) (negative : Bool) :
    ∃ first fraction digits,
      IsScientific (Format.sign negative ++ s.text) negative first fraction s.exponent digits ∧
        fraction.length = s.mantissa.places ∧ (first = '0' ↔ s.mantissa.rational < 1) := by
  obtain ⟨first, fraction, hmantissa, hfirst, hfraction, hplaces, hzero⟩ := exists_mantissa hlt
  obtain ⟨digits, hexponent, hdigits, hnumber, hlength⟩ := exists_exponent s.exponent
  refine ⟨first, fraction, digits, ⟨?_, hfirst, hfraction, hdigits, hnumber, hlength⟩, hplaces,
    hzero⟩
  rw [Scientific.text, hmantissa, hexponent]

end Notation

namespace Exact

variable {v w : Float} {x : Exact}

/-! ### Values under a sign -/

/-- The negation of a float without exact value has none. -/
theorem ofFloat?_neg_eq_none (h : ofFloat? w = none) : ofFloat? (-w) = none := by
  have hneg : -w = .ofModel (.pack w.toModel.unpack.neg) := rfl
  obtain hunpack | ⟨s, hunpack⟩ := unpack_of_ofFloat?_none h
  · rw [hneg, hunpack]
    decide +kernel
  · rw [hneg, hunpack]
    cases s <;> decide +kernel

/-- What is a float under its sign has its magnitude. -/
theorem ofFloat?_of_signed (h : ofFloat? v = some x) (hw : Evaluation.signed x.negative w = v) :
    ofFloat? w = some x.abs := by
  obtain ⟨negative, significand, exponent⟩ := x
  subst hw
  cases negative with
  | false => exact h
  | true =>
      cases hvalue : ofFloat? w with
      | none =>
          have hnone : ofFloat? (-w) = none := ofFloat?_neg_eq_none hvalue
          cases hnone.symm.trans h
      | some y =>
          obtain ⟨sign, significand', exponent'⟩ := y
          have hsome := (ofFloat?_neg hvalue).symm.trans h
          simp only [Option.some.injEq, mk.injEq, Bool.not_eq_true'] at hsome
          obtain ⟨rfl, rfl, rfl⟩ := hsome
          rfl

/-! ### Values rounded to significant digits -/

theorem toRat_eq_withSign (x : Exact) : x.toRat = Notation.withSign x.negative x.rational := rfl

theorem decimalExponent_toRat (x : Exact) : decimalExponent x.toRat = x.leadingPower := by
  rw [toRat_eq_withSign, Notation.decimalExponent_withSign]
  by_cases hzero : x.significand = 0
  · rw [rational_eq_zero_iff.mpr hzero, decimalExponent_zero]
    simp [leadingPower, numerator, hzero]
  · obtain ⟨hlow, hhigh⟩ := x.leadingPower_bounds (x.numerator_ne_zero hzero)
    exact decimalExponent_eq hlow hhigh

theorem abs_toRat (x : Exact) : |x.toRat| = x.rational := by
  rw [toRat]
  split
  · rw [abs_neg, abs_of_nonneg x.rational_nonneg]
  · exact abs_of_nonneg x.rational_nonneg

theorem toRat_eq_zero_iff : x.toRat = 0 ↔ x.significand = 0 := by
  rw [← abs_eq_zero, abs_toRat, rational_eq_zero_iff]

theorem rational_toScientific (x : Exact) (places : Nat) :
    (x.toScientific places).rational =
      x.significantDigits places * 10 ^ (x.leadingPower - places) := by
  have hten : (10 : Rat) ≠ 0 := by norm_num
  rw [toScientific_eq, zpow_sub₀ hten, zpow_natCast]
  split
  · rename_i hcarry
    rw [hcarry, Scientific.rational, Decimal.rational, zpow_add_one₀ hten]
    push_cast
    field_simp
    ring
  · rw [Scientific.rational, Decimal.rational]
    ring

theorem places_toScientific (x : Exact) (places : Nat) :
    (x.toScientific places).mantissa.places = places := by
  rw [toScientific_eq]
  split <;> rfl

end Exact

/-- A mantissa is less than one only for zero. -/
theorem Scientific.Standard.lt_one_iff {s : Scientific} (h : s.Standard) :
    s.mantissa.rational < 1 ↔ s.rational = 0 := by
  have hpower := (ten_zpow_pos s.exponent).ne'
  obtain ⟨hzero, -⟩ | ⟨hone, -⟩ := h
  · simp [Scientific.rational, hzero]
  · have hne : s.mantissa.rational ≠ 0 := (zero_lt_one.trans_le hone).ne'
    rw [Scientific.rational, mul_eq_zero]
    exact iff_of_false hone.not_gt (not_or_intro hne hpower)

theorem Scientific.Standard.lt_ten {s : Scientific} (h : s.Standard) : s.mantissa.rational < 10 := by
  obtain ⟨hzero, -⟩ | ⟨-, hlt⟩ := h
  · rw [hzero]
    norm_num
  · exact hlt

namespace Format

variable {v : Float}

/-- Only zero is written as zero. -/
theorem rational_scientificDecimal_eq_zero_iff (x : Exact) (precision? : Option Nat) :
    (scientificDecimal x precision?).rational = 0 ↔ x.significand = 0 := by
  by_cases hzero : x.significand = 0
  · refine iff_of_true ?_ hzero
    cases precision? with
    | some p =>
        have hnumerator : x.numerator = 0 := by simp [Exact.numerator, hzero]
        rw [scientificDecimal, x.rational_toScientific, x.significantDigits_zero hnumerator,
          Nat.cast_zero, zero_mul]
    | none =>
        rw [scientificDecimal, Scientific.rational_ofDecimal, Exact.shortest, if_pos hzero]
        simp [Decimal.rational]
  · refine iff_of_false (ne_of_gt ?_) hzero
    cases precision? with
    | some p =>
        have hdigits := (x.significantDigits_bounds (x.numerator_ne_zero hzero) p).1
        have hpos : (0 : Rat) < x.significantDigits p := by
          exact_mod_cast (Nat.pow_pos (by decide)).trans_le hdigits
        rw [scientificDecimal, x.rational_toScientific]
        exact mul_pos hpos (ten_zpow_pos _)
    | none =>
        rw [scientificDecimal, Scientific.rational_ofDecimal]
        exact (ten_zpow_pos _).trans_le (x.rational_shortest hzero).1

/-- The scientific mode is well formed and exact. The text of a finite float has its sign, one digit
that is zero only for a zero, a point and the digits of a fraction if there are any, and behind an
`e` the exponent with its sign and at least two digits. With a precision there are so many digits in
the fraction, and the text denotes the value rounded to them, from the middle to the even digit.
Without one the text is read as the float; no decimal that is read as the float has fewer
significant digits, and of those with as few none is nearer to the value. On the way the exponent is
found in the text and read as it was written. -/
theorem scientific_mode {v : Float} (hfinite : v.isFinite = true) (precision? : Option Nat) :
    let text := (Format.mk .scientific precision?).chars v
    ∃ (x : Exact) (q : Rat) (first : Char) (fraction digits : List Char),
      Exact.ofFloat? v = some x ∧ Notation.number? text = some q ∧
      Notation.IsScientific text x.negative first fraction (decimalExponent q) digits ∧
      (first = '0' ↔ x.toRat = 0) ∧
      (∀ p, precision? = some p → fraction.length = p ∧
        ∃ m : Nat, NearestEven m (|x.toRat| * 10 ^ (p - decimalExponent x.toRat)) ∧
          q = Notation.withSign x.negative (m * 10 ^ (decimalExponent x.toRat - p))) ∧
      (precision? = none → Notation.float? text = some v ∧
        ∀ (c : Nat) (scale : Int),
          Evaluation.signed x.negative (Decimal.scaled c scale).toFloat = v →
            fraction.length + 1 ≤ Decimal.digitCount c ∧
            (Decimal.digitCount c = fraction.length + 1 →
              |q - x.toRat| ≤ |Notation.withSign x.negative (c * 10 ^ (-scale)) - x.toRat|)) ∧
      ∃ mantissa written,
        (scientificDecimal x precision?).plainText = mantissa ++ 'e' :: written ∧
          'e' ∉ mantissa ∧ Notation.exponent? written = some (decimalExponent q) := by
  intro text
  obtain ⟨x, h⟩ := Option.isSome_iff_exists.mp ((Exact.isSome_ofFloat? v).trans hfinite)
  have hcanonical := Exact.canonical_of_ofFloat? h
  let s := scientificDecimal x precision?
  have hstandard : s.Standard := standard_scientificDecimal x precision?
  have htext : text = sign x.negative ++ s.text := by
    simp only [text, chars, decimalText, h, signed_eq_append, scientificText_eq hcanonical, s]
  have hexponent : decimalExponent (Notation.withSign x.negative s.rational) = s.exponent := by
    rw [Notation.decimalExponent_withSign]
    exact hstandard.exponent_eq.symm
  obtain ⟨first, fraction, digits, hform, hplaces, hfirst⟩ :=
    Notation.exists_isScientific hstandard.lt_ten x.negative
  refine ⟨x, Notation.withSign x.negative s.rational, first, fraction, digits, h, ?_, ?_, ?_, ?_,
    ?_, ?_⟩
  · rw [htext]
    exact Notation.number?_scientific _ _
  · rwa [htext, hexponent]
  · rw [hfirst, hstandard.lt_one_iff, x.toRat_eq_zero_iff]
    exact rational_scientificDecimal_eq_zero_iff x precision?
  · rintro p rfl
    refine ⟨hplaces.trans (x.places_toScientific p), x.significantDigits p, ?_, ?_⟩
    · rw [x.abs_toRat, x.decimalExponent_toRat]
      exact x.nearestEven_significantDigits p
    · rw [x.decimalExponent_toRat, ← x.rational_toScientific]
      rfl
  · rintro rfl
    have hshortest : s.rational = x.shortest.rational := Scientific.rational_ofDecimal x.shortest
    refine ⟨?_, ?_⟩
    · rw [htext, Notation.float?_scientific x.negative hshortest, signed_shortest h]
    · intro c scale hread
      have hreads : x.readsBack (Decimal.scaled c scale) = true :=
        decide_eq_true (Exact.ofFloat?_of_signed h hread)
      have hrational := Decimal.rational_scaled c scale
      obtain ⟨hfewest, hnearest⟩ := Exact.shortest_optimal hcanonical hrational hreads
      rw [hplaces]
      refine ⟨hfewest, fun hcount => ?_⟩
      have hdistance := hnearest hcount.le
      rw [hrational, ← hshortest] at hdistance
      rwa [x.toRat_eq_withSign, Notation.abs_withSign_sub, Notation.abs_withSign_sub]
  · rw [hexponent]
    exact exists_plainText hcanonical precision?

/-- The middle between nine and ten is rounded to ten, the even one, which has the next exponent.
The least float is read back from one digit. -/
theorem scientific_mode_nineAndAHalf :
    (9.5 : Float).isFinite = true ∧ (5e-324 : Float).isFinite = true ∧
      (Format.mk .scientific (some 0)).chars 9.5 = "1e+01".toList ∧
      (∃ x m, Exact.ofFloat? 9.5 = some x ∧
        NearestEven m (|x.toRat| * 10 ^ ((0 : Nat) - decimalExponent x.toRat)) ∧
        10 = Notation.withSign x.negative (m * 10 ^ (decimalExponent x.toRat - (0 : Nat)))) ∧
      (Format.mk .scientific none).chars 5e-324 = "5e-324".toList ∧
      Notation.float? "5e-324".toList = some 5e-324 := by
  have hfinite : (9.5 : Float).isFinite = true := by decide +kernel
  have hleast : (5e-324 : Float).isFinite = true := by decide +kernel
  have htext : (Format.mk .scientific (some 0)).chars 9.5 = "1e+01".toList := by decide +kernel
  have hshort : (Format.mk .scientific none).chars 5e-324 = "5e-324".toList := by decide +kernel
  refine ⟨hfinite, hleast, htext, ?_, hshort, ?_⟩
  · obtain ⟨x, q, _, _, _, hx, hnumber, -, -, hrounded, -⟩ := scientific_mode hfinite (some 0)
    obtain ⟨-, m, hm, hq⟩ := hrounded 0 rfl
    have hten : Notation.number? "1e+01".toList = some 10 := by decide +kernel
    rw [htext, hten] at hnumber
    exact ⟨x, m, hx, hm, (Option.some.inj hnumber).trans hq⟩
  · obtain ⟨_, _, _, _, _, -, -, -, -, -, hshortest, -⟩ := scientific_mode hleast none
    have hread := (hshortest rfl).1
    rwa [hshort] at hread

end Format

end Reckoner
