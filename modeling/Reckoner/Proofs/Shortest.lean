import Mathlib
import Reckoner.Exact.Shortest
import Reckoner.Proofs.Reading

/-!
# The shortest decimal of a float

The shortest decimal of a value reads back as the value: one that was found for some count of
digits was tried, and otherwise all digits are written, which are the value itself. It has no zeros
at the end of its fraction.
-/

-- Powers are those of the core library.
attribute [instance(2000), default_instance(20000)] instPowNat

namespace Reckoner

namespace Decimal

/-- There are no zeros at the end of the fraction. -/
def Trimmed (d : Decimal) : Prop :=
  d.places = 0 ∨ d.coefficient % 10 ≠ 0

theorem trimmed_dropZeros (coefficient places : Nat) : (dropZeros coefficient places).Trimmed := by
  induction places generalizing coefficient with
  | zero => exact .inl rfl
  | succ places ih =>
      rw [dropZeros]
      split
      · exact ih _
      · exact .inr ‹_›

theorem trimmed_trim (d : Decimal) : d.trim.Trimmed :=
  trimmed_dropZeros d.coefficient d.places

end Decimal

namespace Exact

variable {x : Exact}

theorem Canonical.abs (h : x.Canonical) : x.abs.Canonical :=
  ⟨h.lt, h.least, h.greatest, h.full⟩

theorem rational_nonneg (x : Exact) : 0 ≤ x.rational := by
  rw [rational, magnitude]
  positivity

theorem rational_eq_zero_iff : x.rational = 0 ↔ x.significand = 0 := by
  constructor
  · intro h
    by_contra hpos
    exact absurd h (magnitude_pos hpos x.exponent).ne'
  · intro h
    simp [rational, magnitude, h]

/-- The magnitude as a fraction of natural numbers. -/
theorem rational_eq_div (x : Exact) : x.rational = (x.numerator : Rat) / (x.denominator : Rat) := by
  have hexponent : (x.exponent.toNat : Int) + -((-x.exponent).toNat : Int) = x.exponent := by omega
  rw [rational, magnitude, numerator, denominator]
  conv_lhs => rw [← hexponent]
  rw [zpow_add₀ two_ne_zero, zpow_neg, zpow_natCast, zpow_natCast]
  push_cast
  ring

/-- All digits of a value are the value. -/
theorem coefficient_allDigits (x : Exact) :
    (x.allDigits.coefficient : Rat) = x.rational * 10 ^ x.allDigits.places := by
  have hvalue := Decimal.trim_value
    ⟨x.numerator * 5 ^ (-x.exponent).toNat, (-x.exponent).toNat⟩
  rw [← allDigits] at hvalue
  have hcast : (x.allDigits.coefficient : Rat) * 10 ^ (-x.exponent).toNat =
      x.numerator * 5 ^ (-x.exponent).toNat * 10 ^ x.allDigits.places := by
    exact_mod_cast hvalue
  have hten : (10 : Rat) ^ (-x.exponent).toNat =
      5 ^ (-x.exponent).toNat * x.denominator := by
    rw [denominator, Nat.cast_pow, ← mul_pow]
    norm_num
  have hdenominator : (x.denominator : Rat) ≠ 0 := by
    exact_mod_cast x.denominator_pos.ne'
  rw [rational_eq_div]
  field_simp
  apply mul_left_cancel₀ (pow_ne_zero (-x.exponent).toNat (by norm_num : (5 : Rat) ≠ 0))
  rw [hten] at hcast
  linear_combination hcast

theorem rational_allDigits (x : Exact) : x.allDigits.rational = x.rational := by
  rw [Decimal.rational, coefficient_allDigits, mul_div_cancel_right₀ _ (by positivity)]

/-- The float of the decimal zero. -/
theorem ofFloat?_toFloat_zero : ofFloat? (Decimal.mk 0 0).toFloat = some ⟨false, 0, -1074⟩ := by
  decide +kernel

/-- The shortest decimal reads back. -/
theorem ofFloat?_shortest (h : x.Canonical) : ofFloat? x.shortest.toFloat = some x.abs := by
  rw [shortest]
  split
  · rename_i hzero
    have hexponent : x.exponent = -1074 := by
      have := h.full
      omega
    rw [ofFloat?_toFloat_zero, abs, hzero, hexponent]
  · rename_i hpos
    -- What the search yields was tried there; only the fallback is read back by its value.
    cases hfound : (List.range 17).findSome? fun n => x.withDigits? (n + 1) with
    | some d =>
        obtain ⟨n, -, hd⟩ := List.exists_of_findSome?_eq_some hfound
        have hreads := readsBack_of_withDigits? hd
        simpa [readsBack] using hreads
    | none => exact ofFloat?_toFloat h.abs rfl hpos x.rational_allDigits

theorem trimmed_of_withDigits? {count : Nat} {d : Decimal} (h : x.withDigits? count = some d) :
    d.Trimmed := by
  simp only [withDigits?] at h
  split at h
  · split at h
    · exact Option.some.inj h ▸ Decimal.trimmed_trim _
    · exact Option.some.inj h ▸ Decimal.trimmed_trim _
  · exact Option.some.inj h ▸ Decimal.trimmed_trim _
  · exact Option.some.inj h ▸ Decimal.trimmed_trim _
  · simp at h

/-- The shortest decimal has no zeros at its end. -/
theorem trimmed_shortest (x : Exact) : x.shortest.Trimmed := by
  rw [shortest]
  split
  · exact .inl rfl
  · cases hfound : (List.range 17).findSome? fun n => x.withDigits? (n + 1) with
    | some d =>
        obtain ⟨n, -, hd⟩ := List.exists_of_findSome?_eq_some hfound
        exact trimmed_of_withDigits? hd
    | none => exact Decimal.trimmed_trim _

end Exact

end Reckoner
