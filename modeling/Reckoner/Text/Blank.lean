import Reckoner.Text.Ranges

/-!
# Blanks

A blank is a character with the Unicode property White_Space. Blanks separate tokens and carry no
meaning of their own.
-/

namespace Reckoner.Text

/-- The ranges of the property White_Space, in ascending order. -/
def blankRanges : List (Nat × Nat) := [
  (0x0009, 0x000D), (0x0020, 0x0020), (0x0085, 0x0085), (0x00A0, 0x00A0), (0x1680, 0x1680),
  (0x2000, 0x200A), (0x2028, 0x2029), (0x202F, 0x202F), (0x205F, 0x205F), (0x3000, 0x3000)]

/-- A blank: a character with the property White_Space. -/
def isBlank (c : Char) : Bool :=
  inRanges c.toNat blankRanges

@[simp] theorem isBlank_newline : isBlank '\n' = true := by decide

end Reckoner.Text
