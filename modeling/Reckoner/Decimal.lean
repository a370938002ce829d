import Reckoner.Text.Digits

/-!
# Decimal fractions

A decimal is a natural number over a power of ten, kept with the count of its places, so that
`1.50` and `1.5` are two decimals of one value. It is what a literal denotes before it is rounded
to a float, and what an output is before it is written as text.
-/

-- Powers are those of the core library.
attribute [instance(2000), default_instance(20000)] instPowNat

namespace Reckoner

/-- The fraction `coefficient / 10 ^ places`. -/
structure Decimal where
  coefficient : Nat
  places : Nat
deriving DecidableEq, Repr

namespace Decimal

/-- The float nearest to the decimal; a tie goes to the even significand. -/
def toFloat (d : Decimal) : Float :=
  Float.ofScientific d.coefficient true d.places

/-- A whole number scaled down by a power of ten, or up when the scale is negative. -/
def scaled (n : Nat) (scale : Int) : Decimal :=
  if 0 ≤ scale then ⟨n, scale.toNat⟩ else ⟨n * 10 ^ (-scale).toNat, 0⟩

/-- Drop zeros at the end of a fraction of so many places. -/
def dropZeros (coefficient : Nat) : Nat → Decimal
  | 0 => ⟨coefficient, 0⟩
  | places + 1 =>
    if coefficient % 10 = 0 then dropZeros (coefficient / 10) places
    else ⟨coefficient, places + 1⟩

/-- The decimal without zeros at the end of its fraction. Zeros of the whole part stay. -/
def trim (d : Decimal) : Decimal :=
  dropZeros d.coefficient d.places

/-- Dropping zeros keeps the value, here cleared of denominators. -/
theorem dropZeros_value (coefficient places : Nat) :
    (dropZeros coefficient places).coefficient * 10 ^ places =
      coefficient * 10 ^ (dropZeros coefficient places).places := by
  induction places generalizing coefficient with
  | zero => simp [dropZeros]
  | succ places ih =>
    rw [dropZeros]
    split
    · rename_i h
      have hdiv : coefficient = coefficient / 10 * 10 := by omega
      rw [Nat.pow_succ, ← Nat.mul_assoc, ih (coefficient / 10), Nat.mul_right_comm, ← hdiv]
    · rfl

/-- Trimming keeps the value. -/
theorem trim_value (d : Decimal) :
    d.trim.coefficient * 10 ^ d.places = d.coefficient * 10 ^ d.trim.places :=
  dropZeros_value d.coefficient d.places

/-- The digits of the decimal with a point before its places. Without places there is no point. -/
def text (d : Decimal) : List Char :=
  let whole := Nat.toDigits 10 (d.coefficient / 10 ^ d.places)
  if d.places = 0 then whole
  else whole ++ '.' :: Text.paddedDigits 10 d.places (d.coefficient % 10 ^ d.places)

/-- How many digits a number has; zero has one. -/
def digitCount (n : Nat) : Nat :=
  (Nat.toDigits 10 n).length

end Decimal

end Reckoner
