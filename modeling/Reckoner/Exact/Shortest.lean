import Reckoner.Exact.Rounding

/-!
# The shortest decimal that reads back

Without a precision a float is written with the fewest digits from which it is read back. For each
count of digits the two neighbours of the value among the decimals of that many digits are tried.
If both read back, the nearer is taken, and the larger one from the middle between them.
-/

namespace Reckoner.Exact

/-- Whether a decimal is read as the given magnitude. -/
def readsBack (x : Exact) (d : Decimal) : Bool :=
  ofFloat? d.toFloat = some x.abs

/-- The decimal of so many digits that reads back, if there is one. -/
def withDigits? (x : Exact) (count : Nat) : Option Decimal :=
  let scale : Int := count - 1 - x.leadingPower
  let (above, below) := x.scaledUp scale
  let lower := (Decimal.scaled (above / below) scale).trim
  let upper := (Decimal.scaled (above / below + 1) scale).trim
  match x.readsBack lower, x.readsBack upper with
  | true, true => some (if 2 * (above % below) < below then lower else upper)
  | true, false => some lower
  | false, true => some upper
  | false, false => none

def allDigits (x : Exact) : Decimal :=
  let places := (-x.exponent).toNat
  Decimal.trim ⟨x.numerator * 5 ^ places, places⟩

/-- The shortest decimal that reads back as the magnitude. Seventeen digits are always enough. -/
def shortest (x : Exact) : Decimal :=
  if x.significand = 0 then ⟨0, 0⟩
  else ((List.range 17).findSome? fun n => x.withDigits? (n + 1)).getD x.allDigits

/-- A decimal that was found for some count of digits reads back. -/
theorem readsBack_of_withDigits? {x : Exact} {count : Nat} {d : Decimal}
    (h : x.withDigits? count = some d) : x.readsBack d = true := by
  simp only [withDigits?] at h
  split at h <;> simp_all
  split at h <;> simp_all

end Reckoner.Exact
