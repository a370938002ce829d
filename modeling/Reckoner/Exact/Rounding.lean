import Reckoner.Scientific
import Reckoner.Exact

/-!
# Rounding to a count of digits

The exact value of a float is rounded once, to so many places or to so many significant digits. It
goes to the nearest decimal of that form, and from the middle between two to the even one.
-/

namespace Reckoner

/-- The whole number nearest to a fraction; the middle goes to the even neighbour. -/
def roundHalfEven (numerator denominator : Nat) : Nat :=
  let quotient := numerator / denominator
  let remainder := numerator % denominator
  if 2 * remainder < denominator then quotient
  else if 2 * remainder = denominator ∧ quotient % 2 = 0 then quotient
  else quotient + 1

namespace Exact

/-- The magnitude times a power of ten, as a fraction. -/
def scaledUp (x : Exact) (scale : Int) : Nat × Nat :=
  (x.numerator * 10 ^ scale.toNat, x.denominator * 10 ^ (-scale).toNat)

/-- The power of ten of the first significant digit; zero for zero. -/
def leadingPower (x : Exact) : Int :=
  if x.numerator = 0 then 0
  else if x.denominator ≤ x.numerator then
    Decimal.digitCount (x.numerator / x.denominator) - 1
  else -Decimal.digitCount ((x.denominator - 1) / x.numerator)

def toPlaces (x : Exact) (places : Nat) : Decimal :=
  ⟨roundHalfEven (x.numerator * 10 ^ places) x.denominator, places⟩

/-- The magnitude rounded to one digit before the point and so many behind it. Rounding up to a
power of ten gives a new first digit. -/
def toScientific (x : Exact) (places : Nat) : Scientific :=
  let power := x.leadingPower
  let (above, below) := x.scaledUp (places - power)
  let digits := roundHalfEven above below
  if digits = 10 ^ (places + 1) then ⟨⟨10 ^ places, places⟩, power + 1⟩
  else ⟨⟨digits, places⟩, power⟩

end Exact

end Reckoner
