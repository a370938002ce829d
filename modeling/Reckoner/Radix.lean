import Reckoner.Text.Digits

/-!
# Radices

The three bases besides ten. A radix names the letter that opens its literals (`b$`, `o$`, `h$`)
and the least width of its output.
-/

namespace Reckoner

/-- Base two, eight or sixteen. -/
inductive Radix where
  | binary
  | octal
  | hexadecimal
deriving DecidableEq, Repr

namespace Radix

def base : Radix → Nat
  | binary => 2
  | octal => 8
  | hexadecimal => 16

/-- The letter before the `$` of a literal. -/
def letter : Radix → Char
  | binary => 'b'
  | octal => 'o'
  | hexadecimal => 'h'

/-- The radix whose literals a letter opens. -/
def ofLetter? (c : Char) : Option Radix :=
  if c = 'b' then some binary
  else if c = 'o' then some octal
  else if c = 'h' then some hexadecimal
  else none

@[simp] theorem ofLetter?_letter (r : Radix) : ofLetter? r.letter = some r := by
  cases r <;> rfl

/-- The name used in messages. -/
def name : Radix → String
  | binary => "binary"
  | octal => "octal"
  | hexadecimal => "hexadecimal"

/-- The digits that a pattern of 32 bits needs, the least width of a written number. -/
def width : Radix → Nat
  | binary => 32
  | octal => 12
  | hexadecimal => 8

def isDigit (r : Radix) (c : Char) : Bool :=
  Text.isDigitOf r.base c

def numberOf (r : Radix) (digits : List Char) : Nat :=
  Text.numberOf r.base digits

/-- A number in lower-case digits of the radix, padded with zeros to its width. -/
def digits (r : Radix) (n : Nat) : List Char :=
  Text.paddedDigits r.base r.width n

end Radix

end Reckoner
