import Reckoner.Text.Digits

/-!
# Texts of numbers

Output is put together from texts of numbers. A number in scientific notation is taken apart at its
`e`, and its exponent is written anew. A fraction loses the zeros at its end.
-/

namespace Reckoner.Notation

/-- The exponent that a text is read as, if it is an integer of 32 bits. -/
def exponent? (text : List Char) : Option Int :=
  (Text.integer? text).filter fun i => decide (-2 ^ 31 ≤ i ∧ i < 2 ^ 31)

/-- The mantissa and the exponent of a number in scientific notation. An exponent that is missing or
cannot be read is zero. -/
def splitExponent (text : List Char) : List Char × Int :=
  match text.dropWhile (· != 'e') with
  | _ :: exponent => (text.takeWhile (· != 'e'), (exponent? exponent).getD 0)
  | [] => (text, 0)

/-- The power of ten: an `e`, a sign that is always written, and at least two digits. -/
def exponentText (exponent : Int) : List Char :=
  'e' :: (if exponent < 0 then '-' else '+') :: Text.paddedDigits 10 2 exponent.natAbs

/-- A number in scientific notation with its exponent written anew. -/
def normalize (text : List Char) : List Char :=
  (splitExponent text).1 ++ exponentText (splitExponent text).2

/-- A text without the characters of one kind at its end. -/
def dropEnd (c : Char) (text : List Char) : List Char :=
  (text.reverse.dropWhile (· == c)).reverse

/-- A text without the zeros at the end of its fraction, and without a point that nothing follows.
Zeros of a text without a point stay. -/
def trimFraction (text : List Char) : List Char :=
  if text.contains '.' then dropEnd '.' (dropEnd '0' text) else text

end Reckoner.Notation
