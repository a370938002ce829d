import Mathlib
import Reckoner.Exact

/-!
# Floats and their exact values

The arithmetic of floats is defined on unpacked floats, which are rounded and packed into 64 bits.
The exact value of a float comes from the fields of its bits. This module relates the two: a float
that has an exact value is unpacked to it, and a canonical value is packed into the float that has
it. So a float is determined by its exact value, and its negation has the value with the other
sign.

A value is canonical if it has the exponent that a float gives it: the significand takes 53 bits,
or the exponent is the least.
-/

namespace Reckoner

open Float.Model Float.Model.UnpackedFloat

/-! ### The fields of 64 bits -/

section Fields

variable (b : BitVec Format.binary64.numBits)

theorem toNat_unpackExponent : (unpackExponent b).toNat = b.toNat / 2 ^ 52 % 2 ^ 11 := by
  simp [unpackExponent, Nat.shiftRight_eq_div_pow]

theorem unpackExponent_eq_iff {exponent : BitVec 11} :
    unpackExponent b = exponent ↔ b.toNat / 2 ^ 52 % 2 ^ 11 = exponent.toNat := by
  rw [← toNat_unpackExponent]
  exact BitVec.toNat_inj.symm

theorem toNat_unpackMantissa : (unpackMantissa b).toNat = b.toNat % 2 ^ 52 := by
  simp [unpackMantissa]

theorem toNat_unpackSign : (unpackSign b).toNat = b.toNat / 2 ^ 63 := by
  have hlt : b.toNat < 2 ^ 64 := b.isLt
  simp [unpackSign, Nat.shiftRight_eq_div_pow]
  omega

theorem toNat_append {m n : Nat} (x : BitVec m) (y : BitVec n) :
    (x ++ y).toNat = x.toNat * 2 ^ n + y.toNat := by
  rw [BitVec.toNat_append, ← Nat.shiftLeft_add_eq_or_of_lt y.isLt, Nat.shiftLeft_eq]

theorem toNat_packComponents (s : Sign) (exponent : BitVec 11) (mantissa : BitVec 52) :
    (packComponents Format.binary64 s exponent mantissa).toNat =
      s.toBitVec.toNat * 2 ^ 63 + exponent.toNat * 2 ^ 52 + mantissa.toNat := by
  rw [packComponents, toNat_append, toNat_append]
  omega

end Fields

namespace Exact

def sign (x : Exact) : Sign :=
  if x.negative then .negative else .positive

def unpacked (x : Exact) : UnpackedFloat :=
  if h : x.significand = 0 then .zero x.sign
  else .finite x.sign x.significand x.exponent (Nat.pos_of_ne_zero h)

/-- The significand takes 53 bits, or the exponent is the least; so a float has the value. -/
structure Canonical (x : Exact) : Prop where
  lt : x.significand < 2 ^ 53
  least : -1074 ≤ x.exponent
  greatest : x.exponent ≤ 971
  full : 2 ^ 52 ≤ x.significand ∨ x.exponent = -1074

variable {v w : Float} {x : Exact}

/-- What the fields of the bits say of a float with an exact value. -/
theorem fields_of_ofFloat? (h : ofFloat? v = some x) :
    x.negative = (v.toBits.toNat / 2 ^ 63 == 1) ∧
      (v.toBits.toNat / 2 ^ 52 % 2 ^ 11 = 0 ∧ x.significand = v.toBits.toNat % 2 ^ 52 ∧
          x.exponent = -1074 ∨
        v.toBits.toNat / 2 ^ 52 % 2 ^ 11 ≠ 0 ∧ v.toBits.toNat / 2 ^ 52 % 2 ^ 11 ≠ 2047 ∧
          x.significand = v.toBits.toNat % 2 ^ 52 + 2 ^ 52 ∧
          x.exponent = ((v.toBits.toNat / 2 ^ 52 % 2 ^ 11 : Nat) : Int) - 1075) := by
  simp only [ofFloat?] at h
  split at h
  · simp at h
  · rename_i hspecial
    split at h
    · rename_i hzero
      obtain rfl := Option.some.inj h
      exact ⟨rfl, .inl ⟨hzero, rfl, rfl⟩⟩
    · rename_i hzero
      obtain rfl := Option.some.inj h
      exact ⟨rfl, .inr ⟨hzero, hspecial, rfl, rfl⟩⟩

theorem canonical_of_ofFloat? (h : ofFloat? v = some x) : x.Canonical := by
  obtain ⟨-, ⟨-, hsignificand, hexponent⟩ | ⟨hzero, hspecial, hsignificand, hexponent⟩⟩ :=
    fields_of_ofFloat? h
  · exact ⟨by omega, by omega, by omega, .inr hexponent⟩
  · exact ⟨by omega, by omega, by omega, .inl (by omega)⟩

theorem ofBitVec_eq_sign {b : BitVec 1} (h : x.negative = (b.toNat == 1)) :
    Sign.ofBitVec b = x.sign := by
  have hb : b = 0#1 ∨ b = 1#1 := by
    have hlt := b.isLt
    obtain hzero | hone : b.toNat = 0 ∨ b.toNat = 1 := by omega
    · exact .inl (BitVec.eq_of_toNat_eq hzero)
    · exact .inr (BitVec.eq_of_toNat_eq hone)
  obtain rfl | rfl := hb <;> simp_all [sign, Sign.ofBitVec]

/-- A float with an exact value is unpacked to it. -/
theorem unpack_of_ofFloat? (h : ofFloat? v = some x) : v.toModel.unpack = x.unpacked := by
  obtain ⟨hsign, hfields⟩ := fields_of_ofFloat? h
  let b : BitVec Format.binary64.numBits := v.toModel.toBits.toBitVec
  have hexponent : (unpackExponent b).toNat = v.toBits.toNat / 2 ^ 52 % 2 ^ 11 :=
    toNat_unpackExponent b
  have hmantissa : (unpackMantissa b).toNat = v.toBits.toNat % 2 ^ 52 := toNat_unpackMantissa b
  have hsignVec : Sign.ofBitVec (unpackSign b) = x.sign := by
    apply ofBitVec_eq_sign
    rw [hsign]
    exact congrArg (· == 1) (toNat_unpackSign b).symm
  change UnpackedFloat.unpack Format.binary64 b = x.unpacked
  delta UnpackedFloat.unpack
  dsimp only
  rw [hsignVec]
  have hspecial : unpackExponent b ≠ -1#11 := by
    rw [ne_eq, unpackExponent_eq_iff]
    change v.toBits.toNat / 2 ^ 52 % 2 ^ 11 ≠ 2047
    omega
  rw [if_neg hspecial]
  -- The field is zero for a float whose significand has no implicit bit, zero among them.
  obtain ⟨hzero, hsignificand, hvalue⟩ | ⟨hzero, -, hsignificand, hvalue⟩ := hfields
  · have hzeroVec : unpackExponent b = 0#11 := (unpackExponent_eq_iff b).mpr hzero
    rw [if_pos hzeroVec]
    by_cases hfraction : unpackMantissa b = 0#52
    · have hnone : x.significand = 0 := by
        rw [hsignificand, ← hmantissa, hfraction]
        rfl
      rw [dif_pos hfraction, unpacked, dif_pos hnone]
    · have hsome : x.significand ≠ 0 := by
        intro hnone
        exact hfraction (BitVec.eq_of_toNat_eq (by simp; omega))
      rw [dif_neg hfraction, unpacked, dif_neg hsome]
      simp only [finite.injEq, true_and]
      exact ⟨by omega, by simp [Format.exponentBias]; omega⟩
  · have hnormal : unpackExponent b ≠ 0#11 := mt (unpackExponent_eq_iff b).mp hzero
    have hsome : x.significand ≠ 0 := by omega
    rw [if_neg hnormal, unpacked, dif_neg hsome]
    simp only [finite.injEq, true_and]
    refine ⟨?_, ?_⟩
    · rw [toNat_append]
      simp
      omega
    · simp [Format.exponentBias]
      omega

/-- A float is determined by its exact value. -/
theorem ofFloat?_inj (hv : ofFloat? v = some x) (hw : ofFloat? w = some x) : v = w := by
  have hunpack : v.toModel.unpack = w.toModel.unpack := by
    rw [unpack_of_ofFloat? hv, unpack_of_ofFloat? hw]
  have hbits : v.toBits.toBitVec = w.toBits.toBitVec :=
    (unpack_inj_of_valid v.toModel.valid w.toModel.valid).mp hunpack
  exact Float.toBits_inj.mp (UInt64.toBitVec_inj.mp hbits)

/-- The bits of a canonical value. One unit of the significand is one unit of the bits, also where
the significand outgrows its field. -/
theorem toNat_pack (h : x.Canonical) :
    (UnpackedFloat.pack Format.binary64 x.unpacked).toNat =
      x.sign.toBitVec.toNat * 2 ^ 63 + (x.exponent + 1074).toNat * 2 ^ 52 + x.significand := by
  obtain ⟨hlt, hleast, hgreatest, hfull⟩ := h
  rw [unpacked]
  split
  · rename_i hzero
    have hexponent : x.exponent = -1074 := by omega
    rw [UnpackedFloat.pack, packedZero, toNat_packComponents, hzero, hexponent]
    simp
  · rename_i hpos
    have hbiased : (x.exponent + (Format.binary64.exponentBias : Int) +
        (Format.binary64.mantissaBitsWithoutImplicit : Int)).toNat = (x.exponent + 1075).toNat := by
      simp [Format.exponentBias]
      omega
    have hbits : Format.binary64.mantissaBits = 53 := rfl
    simp only [UnpackedFloat.pack, hbiased, hbits]
    rw [if_neg (by omega)]
    by_cases hnormal : 2 ^ 52 ≤ x.significand
    · have hlog : x.significand.log2 = 52 := by
        have hge := (Nat.le_log2 hpos).mpr hnormal
        have hle := (Nat.log2_lt hpos).mpr hlt
        omega
      rw [if_pos (by omega), toNat_packComponents]
      simp
      omega
    · have hlog : x.significand.log2 < 52 := (Nat.log2_lt hpos).mpr (by omega)
      rw [if_neg (by omega), toNat_packComponents]
      simp
      omega

theorem toNat_toBitVec_sign (x : Exact) :
    x.sign.toBitVec.toNat = if x.negative then 1 else 0 := by
  rw [sign]
  split <;> rfl

/-- A canonical value is packed into the float that has it. -/
theorem ofFloat?_pack (h : x.Canonical) : ofFloat? (.ofModel (.pack x.unpacked)) = some x := by
  have hbits : (Float.ofModel (.pack x.unpacked)).toBits.toNat =
      (if x.negative then 1 else 0) * 2 ^ 63 + (x.exponent + 1074).toNat * 2 ^ 52 +
        x.significand := by
    rw [← toNat_toBitVec_sign]
    exact toNat_pack h
  obtain ⟨hlt, hleast, hgreatest, hfull⟩ := h
  obtain ⟨negative, significand, exponent⟩ := x
  simp only at hlt hleast hgreatest hfull hbits
  generalize hvalue : (if negative then 1 else 0) * 2 ^ 63 + (exponent + 1074).toNat * 2 ^ 52 +
    significand = bits at hbits
  have hsign : (bits / 2 ^ 63 == 1) = negative := by
    cases negative <;> simp at hvalue ⊢ <;> omega
  simp only [ofFloat?, hbits, hsign]
  obtain hsmall | hlarge := Nat.lt_or_ge significand (2 ^ 52)
  · obtain rfl : exponent = -1074 := by omega
    have hfield : bits / 2 ^ 52 % 2 ^ 11 = 0 := by
      cases negative <;> simp at hvalue <;> omega
    have hfraction : bits % 2 ^ 52 = significand := by
      cases negative <;> simp at hvalue <;> omega
    simp [hfield, hfraction]
  · have hfield : bits / 2 ^ 52 % 2 ^ 11 = (exponent + 1075).toNat := by
      cases negative <;> simp at hvalue <;> omega
    have hfraction : bits % 2 ^ 52 + 2 ^ 52 = significand := by
      cases negative <;> simp at hvalue <;> omega
    rw [hfield, hfraction, if_neg (by omega), if_neg (by omega), Option.some.injEq, mk.injEq]
    exact ⟨rfl, rfl, by omega⟩

/-- The negation of a float has the value with the other sign. -/
theorem ofFloat?_neg (h : ofFloat? v = some x) :
    ofFloat? (-v) = some { x with negative := !x.negative } := by
  have hcanonical : ({ x with negative := !x.negative } : Exact).Canonical := by
    obtain ⟨hlt, hleast, hgreatest, hfull⟩ := canonical_of_ofFloat? h
    exact ⟨hlt, hleast, hgreatest, hfull⟩
  have hneg : v.toModel.unpack.neg = ({ x with negative := !x.negative } : Exact).unpacked := by
    have hsign : -x.sign = ({ x with negative := !x.negative } : Exact).sign := by
      cases hx : x.negative <;> simp [sign, hx] <;> rfl
    rw [unpack_of_ofFloat? h, unpacked, unpacked]
    split <;> simp [UnpackedFloat.neg, hsign]
  rw [← ofFloat?_pack hcanonical, ← hneg]
  rfl

/-- A float without exact value is unpacked to an infinity or to NaN. -/
theorem unpack_of_ofFloat?_none (h : ofFloat? v = none) :
    v.toModel.unpack = .notANumber ∨ ∃ s, v.toModel.unpack = .infinity s := by
  let b : BitVec Format.binary64.numBits := v.toModel.toBits.toBitVec
  have hfield : v.toBits.toNat / 2 ^ 52 % 2 ^ 11 = 2047 := by
    simp only [ofFloat?] at h
    split at h
    · assumption
    · split at h <;> simp at h
  have hspecial : unpackExponent b = -1#11 := (unpackExponent_eq_iff b).mpr hfield
  change UnpackedFloat.unpack Format.binary64 b = _ ∨ ∃ s, UnpackedFloat.unpack _ b = _
  delta UnpackedFloat.unpack
  dsimp only
  rw [if_pos hspecial]
  split
  · exact .inr ⟨_, rfl⟩
  · exact .inl rfl

/-- The floats with an exact value are the finite ones. -/
theorem isSome_ofFloat? (v : Float) : (ofFloat? v).isSome = v.isFinite := by
  change _ = v.toModel.unpack.isFinite
  cases h : ofFloat? v with
  | none =>
      obtain hunpack | ⟨s, hunpack⟩ := unpack_of_ofFloat?_none h
      all_goals
        rw [hunpack]
        rfl
  | some x =>
      rw [unpack_of_ofFloat? h, unpacked]
      split <;> rfl

end Exact

end Reckoner
