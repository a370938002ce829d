/-!
# Two's complement

Radix literals and radix output see an integer as a pattern of bits. A literal is a pattern of 32
bits. Output shows 32 bits where they are enough, for signed or for unsigned numbers, and 64 bits
otherwise, so that no bit of the integer is lost.
-/

-- Powers are those of the core library.
attribute [instance(2000), default_instance(20000)] instPowNat

namespace Reckoner.TwosComplement

/-- The signed number that a pattern of 32 bits stands for: itself below the sign bit, and a
negative number from there on. -/
def signed (n : Nat) : Int :=
  if n < 2 ^ 31 then n else n - 2 ^ 32

def least : Int := -(2 ^ 63)

def greatest : Int := 2 ^ 63 - 1

/-- The integer of 64 bits that is nearest to `i`. -/
def saturate (i : Int) : Int :=
  max least (min i greatest)

/-- Whether 32 bits, read as signed or as unsigned, are enough for an integer. -/
def isNarrow (i : Int) : Bool :=
  -(2 ^ 31) ≤ i && i < 2 ^ 32

/-- The pattern of an integer: its residue modulo `2 ^ 32` when it is narrow, and modulo `2 ^ 64`
otherwise. -/
def pattern (i : Int) : Nat :=
  if isNarrow i then (i % 2 ^ 32).toNat else (i % 2 ^ 64).toNat

end Reckoner.TwosComplement
