import Mathlib.Data.Rat.Floor
import Reckoner.Proofs.RadixLiteral
import Reckoner.Proofs.Shortest

/-!
# Bit patterns as texts

The radix modes write one number, the bit pattern of the whole part of a float, in three bases. The
text has just the digits of that number and the zeros that bring it to its width, so it tells the
pattern; and the pattern tells the whole part, but for two integers that are `2 ^ 32` apart and both
fit in 32 bits, one as signed and one as unsigned. A pattern of 64 bits is never one of 32 bits.
-/

-- Powers are those of the core library.
attribute [instance(2000), default_instance(20000)] instPowNat

namespace Reckoner

/-! ### Whole parts -/

/-- A number without its fraction. -/
def truncated (q : Rat) : Int := if 0 ≤ q then ⌊q⌋ else ⌈q⌉

namespace Exact

theorem truncate_eq (x : Exact) : x.truncate = truncated x.toRat := by
  have hfloor : ⌊x.rational⌋ = ((x.numerator / x.denominator : Nat) : Int) := by
    rw [rational_eq_div, Rat.floor_natCast_div_natCast, Int.natCast_ediv]
  have hnonneg : 0 ≤ x.rational := by
    rw [rational, magnitude]
    positivity
  rw [truncate, toRat, truncated]
  cases x.negative with
  | false => simp only [Bool.false_eq_true, if_false, if_pos hnonneg, hfloor]
  | true =>
      obtain hzero | hpos := hnonneg.eq_or_lt
      · rw [← hzero, Int.floor_zero] at hfloor
        simp [← hzero, ← hfloor]
      · have hnegative : ¬0 ≤ -x.rational := by linarith
        simp only [if_true, if_neg hnegative, Int.ceil_neg, hfloor]

end Exact

/-! ### Patterns -/

namespace TwosComplement

variable {i j : Int}

theorem pattern_of_narrow (h : -(2 ^ 31) ≤ i ∧ i < 2 ^ 32) : (pattern i : Int) = i % 2 ^ 32 := by
  rw [pattern, if_pos (isNarrow_iff.mpr h)]
  omega

theorem pattern_of_not_narrow (h : ¬(-(2 ^ 31) ≤ i ∧ i < 2 ^ 32)) :
    (pattern i : Int) = i % 2 ^ 64 := by
  rw [pattern, if_neg (mt isNarrow_iff.mp h)]
  omega

/-- Two integers of 64 bits have one pattern if they are equal, or if both fit in 32 bits and differ
by `2 ^ 32`. -/
theorem pattern_eq_iff (hi : least ≤ i ∧ i ≤ greatest) (hj : least ≤ j ∧ j ≤ greatest) :
    pattern i = pattern j ↔
      i = j ∨ (-(2 ^ 31) ≤ i ∧ i < 2 ^ 32) ∧ (-(2 ^ 31) ≤ j ∧ j < 2 ^ 32) ∧
        (i - j).natAbs = 2 ^ 32 := by
  have hlei := le_pattern hi.1 hi.2
  have hlej := le_pattern hj.1 hj.2
  rw [least, greatest] at hi hj
  by_cases hnarrowi : -(2 ^ 31) ≤ i ∧ i < 2 ^ 32
  · have hpatterni := pattern_of_narrow hnarrowi
    by_cases hnarrowj : -(2 ^ 31) ≤ j ∧ j < 2 ^ 32
    · have hpatternj := pattern_of_narrow hnarrowj
      omega
    · have := hlej hnarrowj
      omega
  · have hpatterni := pattern_of_not_narrow hnarrowi
    by_cases hnarrowj : -(2 ^ 31) ≤ j ∧ j < 2 ^ 32
    · have hpatternj := pattern_of_narrow hnarrowj
      have := hlei hnarrowi
      omega
    · have hpatternj := pattern_of_not_narrow hnarrowj
      omega

end TwosComplement

/-! ### Texts -/

namespace Text

variable {base : Nat}

/-- A number has one digit more than the largest power of the base that it reaches. -/
theorem length_toDigits (hbase : 1 < base) (n : Nat) :
    (Nat.toDigits base n).length = Nat.log base n + 1 := by
  induction n using Nat.strongRecOn with
  | ind n ih =>
      obtain hsmall | hlarge := Nat.lt_or_ge n base
      · rw [Nat.toDigits_of_lt_base hsmall, Nat.log_of_lt hsmall]
        rfl
      · have hdiv := Nat.div_lt_self (by omega : 0 < n) hbase
        rw [Nat.toDigits_of_base_le hbase hlarge, List.length_append, ih _ hdiv,
          Nat.log_of_one_lt_of_le hbase hlarge]
        rfl

/-- Numbers are written in the characters of the digits of the base. -/
theorem exists_of_mem_toDigits (hbase : 1 < base) {n : Nat} {c : Char}
    (h : c ∈ Nat.toDigits base n) : ∃ k < base, c = k.digitChar := by
  induction n using Nat.strongRecOn with
  | ind n ih =>
      rw [Nat.toDigits_eq_if hbase] at h
      split at h
      · rename_i hsmall
        exact ⟨n, hsmall, List.mem_singleton.mp h⟩
      · obtain h | h := List.mem_append.mp h
        · exact ih _ (Nat.div_lt_self (by omega) hbase) h
        · exact ⟨n % base, Nat.mod_lt n (by omega), List.mem_singleton.mp h⟩

end Text

namespace Radix

variable (r : Radix)

def lowerDigits : List Char := "0123456789abcdef".toList.take r.base

theorem mem_lowerDigits_of_mem_digits {n : Nat} {c : Char} (h : c ∈ r.digits n) :
    c ∈ r.lowerDigits := by
  have hall : ∀ k < r.base, k.digitChar ∈ r.lowerDigits := by
    cases r <;> decide
  rw [digits, Text.paddedDigits, List.leftpad] at h
  obtain h | h := List.mem_append.mp h
  · rw [List.eq_of_mem_replicate h]
    exact hall 0 (Nat.zero_lt_of_lt r.one_lt_base)
  · obtain ⟨k, hk, rfl⟩ := Text.exists_of_mem_toDigits r.one_lt_base h
    exact hall k hk

/-- Written digits denote the number that was written. -/
theorem denoted_digits (n : Nat) : r.denoted (r.digits n) = n := by
  have hdigits : ∀ c ∈ r.digits n, r.isDigit c = true :=
    Text.isDigitOf_of_mem_paddedDigits r.one_lt_base r.base_le
  rw [← numberOf_eq_denoted hdigits]
  exact Text.numberOf_paddedDigits r.one_lt_base r.base_le r.width n

theorem length_digits (n : Nat) : (r.digits n).length = max r.width (Nat.log r.base n + 1) := by
  rw [digits, Text.length_paddedDigits, Text.length_toDigits r.one_lt_base]

end Radix

/-! ### Radix output -/

/-- Radix output keeps every bit. The whole part of a float is its value without the fraction, kept
inside 64 bits; for NaN it is zero. In the three radix modes the text of a float denotes one natural
number: the whole part modulo `2 ^ 32` if it fits in 32 bits as a signed or as an unsigned integer,
and modulo `2 ^ 64` otherwise. A text has the digits of its radix alone, in lower case, and zeros in
front up to the width of the radix and no further. Two floats have one text if and only if their
whole parts are equal, or both fit in 32 bits and are `2 ^ 32` apart. -/
theorem Format.radix_output (precision? : Option Nat) :
    let whole (v : Float) : Int := v.toModel.toInt64.toInt
    let narrow (i : Int) : Prop := -(2 ^ 31) ≤ i ∧ i < 2 ^ 32
    let text (r : Radix) (v : Float) := (Format.mk (.radix r) precision?).chars v
    (∀ v x, Exact.ofFloat? v = some x →
      whole v = max (-(2 ^ 63)) (min (truncated x.toRat) (2 ^ 63 - 1))) ∧
    (∀ v, v.isFinite = false →
      whole v = if v.isNaN then 0 else if v < 0 then -(2 ^ 63) else 2 ^ 63 - 1) ∧
    (∀ v, ∃ n : Nat, (narrow (whole v) → n = whole v % 2 ^ 32) ∧
      (¬narrow (whole v) → n = whole v % 2 ^ 64) ∧
      ∀ r, r.denoted (text r v) = n ∧
        (∀ c ∈ text r v, c ∈ "0123456789abcdef".toList.take r.base) ∧
        (text r v).length = max (match r with
          | .binary => 32
          | .octal => 12
          | .hexadecimal => 8) (Nat.log r.base n + 1)) ∧
    (∀ r v w, text r v = text r w ↔ whole v = whole w ∨
      narrow (whole v) ∧ narrow (whole w) ∧ (whole v - whole w).natAbs = 2 ^ 32) := by
  intro whole narrow text
  have hwhole (v : Float) : wholePart v = whole v := wholePart_eq v
  have htext (r : Radix) (v : Float) : text r v = r.digits (TwosComplement.pattern (whole v)) := by
    rw [← hwhole]
    rfl
  refine ⟨?_, ?_, ?_, ?_⟩
  · intro v x hx
    rw [← hwhole, wholePart, hx, ← x.truncate_eq]
    rfl
  · intro v hfinite
    have hnone : Exact.ofFloat? v = none := by
      rwa [← Option.isNone_iff_eq_none, ← Option.not_isSome, Exact.isSome_ofFloat?, Bool.not_eq_true']
    rw [← hwhole, wholePart, hnone]
    rfl
  · intro v
    refine ⟨TwosComplement.pattern (whole v), TwosComplement.pattern_of_narrow,
      TwosComplement.pattern_of_not_narrow, ?_⟩
    intro r
    rw [htext]
    refine ⟨r.denoted_digits _, fun c hc => r.mem_lowerDigits_of_mem_digits hc, ?_⟩
    rw [r.length_digits]
    cases r <;> rfl
  · intro r v w
    have hbounds (v : Float) :
        TwosComplement.least ≤ whole v ∧ whole v ≤ TwosComplement.greatest :=
      ⟨Int64.le_toInt _, Int64.toInt_le _⟩
    rw [← TwosComplement.pattern_eq_iff (hbounds v) (hbounds w), htext, htext]
    constructor
    · intro h
      rw [← r.denoted_digits (TwosComplement.pattern (whole v)), h, r.denoted_digits]
    · exact congrArg r.digits

end Reckoner
