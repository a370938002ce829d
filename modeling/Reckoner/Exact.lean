/-!
# The exact value of a float

A finite float is a whole number times a power of two. Everything that is written about a float is
computed from that exact value with natural numbers, so no rounding happens but the one that a
notation asks for.
-/

-- Powers are those of the core library.
attribute [instance(2000), default_instance(20000)] instPowNat

namespace Reckoner

/-- The number `± significand * 2 ^ exponent`. Zero has a sign too. -/
structure Exact where
  negative : Bool
  significand : Nat
  exponent : Int
deriving DecidableEq, Repr

namespace Exact

/-- The value of a float from the three fields of its 64 bits. The largest exponent field is that
of the infinities and of NaN, which have no value. -/
def ofFloat? (v : Float) : Option Exact :=
  let bits : Nat := v.toBits.toNat
  let negative := bits / 2 ^ 63 == 1
  let field : Nat := bits / 2 ^ 52 % 2 ^ 11
  let fraction : Nat := bits % 2 ^ 52
  if field = 2 ^ 11 - 1 then none
  else if field = 0 then some ⟨negative, fraction, -1074⟩
  else some ⟨negative, fraction + 2 ^ 52, (field : Int) - 1075⟩

def abs (x : Exact) : Exact := { x with negative := false }

/-- The magnitude as a fraction: what stands above the line. -/
def numerator (x : Exact) : Nat := x.significand * 2 ^ x.exponent.toNat

/-- The magnitude as a fraction: what stands below the line. -/
def denominator (x : Exact) : Nat := 2 ^ (-x.exponent).toNat

theorem denominator_pos (x : Exact) : 0 < x.denominator :=
  Nat.pow_pos (by decide)

/-- The whole part, with the sign. -/
def truncate (x : Exact) : Int :=
  let whole : Nat := x.numerator / x.denominator
  if x.negative then -whole else whole

end Exact

end Reckoner
