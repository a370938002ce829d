import Reckoner.Decimal

/-!
# Scientific notation

A decimal in scientific form has a mantissa with one digit before the point and a power of ten.
The same number can be written in either notation, so the choice between them is one of text only.
-/

namespace Reckoner

/-- The number `mantissa * 10 ^ exponent`. -/
structure Scientific where
  mantissa : Decimal
  exponent : Int
deriving DecidableEq, Repr

namespace Scientific

/-- A decimal in scientific form, without zeros at the end of its mantissa. -/
def ofDecimal (d : Decimal) : Scientific :=
  let behind := Decimal.digitCount d.coefficient - 1
  ⟨Decimal.trim ⟨d.coefficient, behind⟩, behind - d.places⟩

/-- The number as it is first written: the mantissa, an `e` and the exponent as an integer. -/
def plainText (s : Scientific) : List Char :=
  s.mantissa.text ++ 'e' :: Text.integerDigits s.exponent

end Scientific

end Reckoner
