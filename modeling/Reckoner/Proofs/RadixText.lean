import Reckoner.Format
import Reckoner.Proofs.Digits
import Reckoner.Proofs.ExactRounding
import Reckoner.Proofs.Segmentation

/-!
# Radix output and radix literals

In a radix mode a float is written as the bit pattern of its whole part, and a radix literal is a
bit pattern of 32 bits that is read as signed. Output that fits in 32 bits is a literal of the same
integer modulo `2 ^ 32`; any other output is a literal that overflows. A literal is written as its
own digits, in lower case and brought to the width of the radix.
-/

-- Powers are those of the core library.
attribute [instance(2000), default_instance(20000)] instPowNat

namespace Reckoner

open Float.Model Float.Model.UnpackedFloat

/-! ### Whole parts -/

theorem shiftRight_mantissa (em : ExtendedMantissa) (k : Nat) :
    (em >>> k).mantissa = em.mantissa / 2 ^ k := by
  induction k with
  | zero => rw [Nat.pow_zero, Nat.div_one]; rfl
  | succ k ih =>
      change (ExtendedMantissa.shiftRightOne (em >>> k)).mantissa = _
      rw [ExtendedMantissa.shiftRightOne, ih, Nat.div_div_eq_div_mul, Nat.pow_succ]

namespace Exact

variable {v : Float} {x : Exact}

/-- Truncating an unpacked float gives the whole part of its value. -/
theorem toInt_unpacked (x : Exact) (low high : Int) : x.unpacked.toInt low high = x.truncate := by
  rw [unpacked, truncate]
  split
  · rename_i hzero
    simp [UnpackedFloat.toInt, numerator, hzero]
  · have hshift : (0 - (x.exponent - (x.exponent.toNat : Int))).toNat = (-x.exponent).toNat := by
      omega
    simp only [UnpackedFloat.toInt, roundToInt, decreaseExponent, shiftToExponent,
      Int.sub_zero, hshift, shiftRight_mantissa, ExtendedMantissa.ofMantissaAndAccuracy,
      Nat.shiftLeft_eq]
    cases hsign : x.negative <;> simp [sign, hsign, Sign.apply, numerator, denominator]

end Exact

theorem toInt_ofIntClamp (i : Int) : (Int64.ofIntClamp i).toInt = TwosComplement.saturate i := by
  have hleast : Int64.minValue.toInt = TwosComplement.least := by decide
  have hgreatest : Int64.maxValue.toInt = TwosComplement.greatest := by decide
  have hbounds : TwosComplement.least ≤ TwosComplement.greatest := by decide
  rw [TwosComplement.saturate]
  by_cases hlow : TwosComplement.least ≤ i
  · by_cases hhigh : i ≤ TwosComplement.greatest
    · rw [Int64.toInt_ofIntClamp (hleast ▸ hlow) (hgreatest ▸ hhigh)]
      omega
    · rw [Int64.ofIntClamp, dif_pos (hleast ▸ hlow), dif_neg (hgreatest ▸ hhigh), hgreatest]
      omega
  · rw [Int64.ofIntClamp, dif_neg (hleast ▸ hlow), hleast]
    omega

theorem lt_zero_iff (v : Float) : v < 0 ↔ v.toModel.unpack.lt (.zero .positive) = true := by
  change decide (v.toModel < (0 : Float).toModel) = true ↔ _
  rw [decide_eq_true_iff]
  exact Iff.rfl

/-- The whole part of a float is the float truncated toward zero and kept inside 64 bits. -/
theorem Format.wholePart_eq (v : Float) : wholePart v = v.toModel.toInt64.toInt := by
  rw [Float.Model.toInt64, UnpackedFloat.toInt64, toInt_ofIntClamp, wholePart]
  split
  · rename_i x hx
    rw [Exact.unpack_of_ofFloat? hx, Exact.toInt_unpacked]
  · rename_i hnone
    have hnan : v.isNaN = v.toModel.unpack.isNaN := rfl
    obtain hunpack | ⟨s, hunpack⟩ := Exact.unpack_of_ofFloat?_none hnone
    · rw [hnan, hunpack]
      rfl
    · simp only [hnan, lt_zero_iff, hunpack]
      cases s <;> rfl

/-! ### Patterns of bits -/

namespace TwosComplement

theorem isNarrow_iff {i : Int} : isNarrow i = true ↔ -(2 ^ 31) ≤ i ∧ i < 2 ^ 32 := by
  rw [isNarrow, Bool.and_eq_true, decide_eq_true_eq, decide_eq_true_eq]

theorem signed_pattern {i : Int} (h : -(2 ^ 31) ≤ i ∧ i < 2 ^ 32) :
    pattern i < 2 ^ 32 ∧ signed (pattern i) = i.bmod (2 ^ 32) := by
  rw [pattern, if_pos (isNarrow_iff.mpr h), signed, Int.bmod]
  omega

/-- A pattern of an integer of 64 bits that does not fit in 32 is too large for a literal. -/
theorem le_pattern {i : Int} (hleast : least ≤ i) (hgreatest : i ≤ greatest)
    (h : ¬(-(2 ^ 31) ≤ i ∧ i < 2 ^ 32)) : 2 ^ 32 ≤ pattern i := by
  rw [least] at hleast
  rw [greatest] at hgreatest
  rw [pattern, if_neg (mt isNarrow_iff.mp h)]
  omega

theorem signed_bounds {n : Nat} (h : n < 2 ^ 32) : -(2 ^ 31) ≤ signed n ∧ signed n < 2 ^ 31 := by
  rw [signed]
  split <;> omega

theorem pattern_signed {n : Nat} (h : n < 2 ^ 32) : pattern (signed n) = n := by
  obtain ⟨hleast, hgreatest⟩ := signed_bounds h
  rw [pattern, if_pos (isNarrow_iff.mpr ⟨hleast, by omega⟩), signed]
  split <;> omega

end TwosComplement

/-! ### Literals -/

namespace Radix

variable (r : Radix)

theorem one_lt_base : 1 < r.base := by
  cases r <;> decide

theorem base_le : r.base ≤ 16 := by
  cases r <;> decide

theorem width_pos : 0 < r.width := by
  cases r <;> decide

def literal (digits : List Char) : List Char :=
  r.letter :: '$' :: digits

variable {r} {digits : List Char}

/-- A radix letter, a `$` and digits of the radix are one token. -/
theorem scan_literal (h : ∀ c ∈ digits, r.isDigit c = true) :
    Scan.ofText (String.ofList (r.literal digits)) =
      ⟨[⟨Lexeme.radixKind r digits, Place.start⟩], Place.behind (r.literal digits)⟩ := by
  let g : Segment :=
    ⟨[], r.letter, '$' :: digits, Lexeme.radixKind r digits, by simp, r.isBlank_letter⟩
  have hlexeme : g.lexeme = r.literal digits := rfl
  have hreads : g.ReadsBefore [] := by
    rw [Segment.ReadsBefore, List.append_nil]
    exact front_letter h
  rw [← hlexeme]
  exact Segment.scan_lexeme hreads

/-- An accepted literal has digits of a number of 32 bits. -/
theorem of_radixKind_eq_number {w : Float} (h : Lexeme.radixKind r digits = .number w) :
    r.numberOf digits < 2 ^ 32 ∧ w = Float.ofInt (TwosComplement.signed (r.numberOf digits)) := by
  rw [Lexeme.radixKind] at h
  split at h
  · simp at h
  · split at h
    · exact ⟨‹_›, by simpa using h.symm⟩
    · simp at h

/-! ### Written numbers -/

variable (r) in
/-- A written number as a literal: the number as a pattern, if it has 32 bits. -/
theorem radixKind_digits (n : Nat) :
    Lexeme.radixKind r (r.digits n) =
      if n < 2 ^ 32 then .number (Float.ofInt (TwosComplement.signed n))
      else .bad (.overflow r) := by
  have hne : r.digits n ≠ [] := by
    intro hnil
    have hlength := Text.length_paddedDigits r.base r.width n
    have hwidth := r.width_pos
    rw [← digits, hnil, List.length_nil] at hlength
    omega
  have hnumber : r.numberOf (r.digits n) = n :=
    Text.numberOf_paddedDigits r.one_lt_base r.base_le r.width n
  rw [Lexeme.radixKind, if_neg (by simpa using hne), hnumber]

variable (r) in
/-- Written digits are one token as a literal. -/
theorem scan_digits (n : Nat) :
    Scan.ofText (String.ofList (r.literal (r.digits n))) =
      ⟨[⟨Lexeme.radixKind r (r.digits n), Place.start⟩],
        Place.behind (r.literal (r.digits n))⟩ :=
  scan_literal (Text.isDigitOf_of_mem_paddedDigits r.one_lt_base r.base_le)

/-- The number of a literal is written as the digits of the literal. -/
theorem digits_numberOf (h : ∀ c ∈ digits, r.isDigit c = true) :
    r.digits (r.numberOf digits) =
      ((digits.map Char.toLower).dropWhile (· = '0')).leftpad r.width '0' :=
  Text.paddedDigits_numberOf r.width_pos r.one_lt_base h

end Radix

theorem Format.chars_radix (r : Radix) (precision? : Option Nat) (v : Float) :
    (Format.mk (.radix r) precision?).chars v = r.digits (TwosComplement.pattern (wholePart v)) :=
  rfl

/-- A pattern of 32 bits is the whole part of the number that it stands for. -/
theorem Format.wholePart_signed {n : Nat} (h : n < 2 ^ 32) :
    wholePart (Float.ofInt (TwosComplement.signed n)) = TwosComplement.signed n := by
  have hsigned := TwosComplement.signed_bounds h
  have hlt : (TwosComplement.signed n).natAbs < 2 ^ 53 := by omega
  rw [wholePart, Exact.ofFloat?_ofInt hlt]
  simp only [Exact.truncate_ofInt hlt, TwosComplement.saturate, TwosComplement.least,
    TwosComplement.greatest]
  omega

/-- Radix output and radix literals are inverse to each other. The output of a float behind the
letter of the radix and a `$` is one token. If the float, truncated toward zero and kept inside 64
bits, fits in 32 bits as a signed or as an unsigned integer, the token is the number that is the
integer modulo `2 ^ 32`, as signed; otherwise it is an overflow. The output of an accepted literal
is its digits in lower case, with the zeros in front brought to the width of the radix. -/
theorem Radix.output_inverts_literal (r : Radix) (precision? : Option Nat) :
    (∀ v : Float,
      let i := v.toModel.toInt64.toInt
      let literal := r.literal ((Format.mk (.radix r) precision?).chars v)
      let narrow := -(2 ^ 31) ≤ i ∧ i < 2 ^ 32
      (narrow →
        Scan.ofText (String.ofList literal) =
            ⟨[⟨.number (Float.ofInt (i.bmod (2 ^ 32))), Place.start⟩], Place.behind literal⟩ ∧
          ∃ x, Exact.ofFloat? (Float.ofInt (i.bmod (2 ^ 32))) = some x ∧
            x.toRat = (i.bmod (2 ^ 32) : Int) ∧ (i < 2 ^ 31 → x.toRat = i)) ∧
      (¬narrow →
        Scan.ofText (String.ofList literal) =
          ⟨[⟨.bad (.overflow r), Place.start⟩], Place.behind literal⟩)) ∧
    (∀ (digits : List Char) (w : Float), (∀ c ∈ digits, r.isDigit c = true) →
      (Scan.ofText (String.ofList (r.literal digits))).tokens = [⟨.number w, Place.start⟩] →
      (Format.mk (.radix r) precision?).chars w =
        ((digits.map Char.toLower).dropWhile (· = '0')).leftpad r.width '0') := by
  constructor
  · intro v i literal narrow
    have hliteral : literal = r.literal (r.digits (TwosComplement.pattern i)) := by
      simp only [literal, Format.chars_radix, Format.wholePart_eq, i]
    rw [hliteral, r.scan_digits, r.radixKind_digits]
    constructor
    · intro hnarrow
      obtain ⟨hlt, hsigned⟩ := TwosComplement.signed_pattern hnarrow
      have habs : (i.bmod (2 ^ 32)).natAbs < 2 ^ 53 := by
        rw [Int.bmod]
        omega
      rw [if_pos hlt, hsigned]
      refine ⟨rfl, _, Exact.ofFloat?_ofInt habs, Exact.toRat_ofInt habs, ?_⟩
      intro hfits
      have hsame : i.bmod (2 ^ 32) = i := by
        rw [Int.bmod]
        omega
      rw [Exact.toRat_ofInt habs, hsame]
    · intro hwide
      have hle := TwosComplement.le_pattern (Int64.le_toInt _) (Int64.toInt_le _) hwide
      rw [if_neg (Nat.not_lt.mpr hle)]
  · intro digits w hdigits htokens
    rw [scan_literal hdigits] at htokens
    obtain ⟨hlt, rfl⟩ := of_radixKind_eq_number (by simpa using htokens)
    rw [Format.chars_radix, Format.wholePart_signed hlt, TwosComplement.pattern_signed hlt,
      digits_numberOf hdigits]

/-- A literal that is in upper case and has more zeros than its output. -/
theorem Radix.output_inverts_literal_minusOne :
    (Format.mk (.radix .hexadecimal) none).chars (Float.ofInt (-1)) = "ffffffff".toList := by
  have hall : "00FfFfFfFf".toList.all Radix.hexadecimal.isDigit = true := by
    decide
  have hdigits := List.all_eq_true.mp hall
  have hkind : Lexeme.radixKind .hexadecimal "00FfFfFfFf".toList = .number (Float.ofInt (-1)) :=
    (radixKind_of_lt (by decide) (by decide)).trans (by rfl)
  have htokens :
      (Scan.ofText (String.ofList (Radix.hexadecimal.literal "00FfFfFfFf".toList))).tokens =
        [⟨.number (Float.ofInt (-1)), Place.start⟩] := by
    rw [scan_literal hdigits, hkind]
  exact (output_inverts_literal .hexadecimal none).2 _ _ hdigits htokens

end Reckoner
