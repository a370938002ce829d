import Reckoner.Exact.Shortest
import Reckoner.Notation
import Reckoner.Radix
import Reckoner.TwosComplement

/-!
# Output of numbers

A format is a mode and a precision. The decimal modes write the sign and the magnitude of a float,
rounded to digits or places; the radix modes write the bit pattern of its whole part. The infinities
and NaN have texts of their own in the decimal modes.
-/

namespace Reckoner

/-- How numbers are written. -/
inductive Mode where
  /-- Decimal digits with a point and no power of ten. -/
  | fixed
  /-- Fixed or scientific, by the size of the number. -/
  | real
  /-- One digit before the point, and a power of ten. -/
  | scientific
  /-- The bit pattern of the whole part in a radix. -/
  | radix (r : Radix)
deriving DecidableEq, Repr

/-- A mode with a precision: a count of places in the fixed and scientific modes, and of significant
digits in the real mode. Without a precision the shortest digits that read back are written. -/
structure Format where
  mode : Mode := .real
  precision? : Option Nat := none
deriving DecidableEq, Repr

namespace Format

def maxPrecision : Nat := 64

def withMode (f : Format) (mode : Mode) : Format := { f with mode }

/-- The format with another precision, at most the largest. -/
def withPrecision (f : Format) (precision? : Option Nat) : Format :=
  { f with precision? := precision?.map (min maxPrecision) }

@[simp] theorem withMode_mode (f : Format) (mode : Mode) : (f.withMode mode).mode = mode := rfl

@[simp] theorem withMode_precision? (f : Format) (mode : Mode) :
    (f.withMode mode).precision? = f.precision? := rfl

@[simp] theorem withPrecision_mode (f : Format) (precision? : Option Nat) :
    (f.withPrecision precision?).mode = f.mode := rfl

/-- A precision that was set is at most the largest. -/
theorem le_maxPrecision_of_withPrecision {f : Format} {precision? : Option Nat} {p : Nat}
    (h : (f.withPrecision precision?).precision? = some p) : p ≤ maxPrecision := by
  obtain ⟨q, _, rfl⟩ := Option.map_eq_some_iff.mp h
  exact Nat.min_le_left _ _

/-- A format without a precision, or with one that is at most the largest. -/
def Allowed (f : Format) : Prop :=
  ∀ p, f.precision? = some p → p ≤ maxPrecision

theorem allowed_withPrecision (f : Format) (precision? : Option Nat) :
    (f.withPrecision precision?).Allowed := by
  intro p hp
  exact le_maxPrecision_of_withPrecision hp

/-- A precision that is allowed is set as it is. -/
theorem withPrecision_of_allowed {f g : Format} (h : g.Allowed) (hmode : f.mode = g.mode) :
    f.withPrecision g.precision? = g := by
  obtain ⟨mode, precision?⟩ := g
  obtain rfl : f.mode = mode := hmode
  cases precision? with
  | none => rfl
  | some p => simp [withPrecision, Nat.min_eq_right (h p rfl)]

def notFinite (v : Float) : List Char :=
  if v.isNaN then "NaN".toList
  else if v < 0 then "-inf".toList
  else "inf".toList

/-- A text with the sign of a value in front. -/
def signed (x : Exact) (digits : List Char) : List Char :=
  if x.negative then '-' :: digits else digits

def fixedDecimal (x : Exact) : Option Nat → Decimal
  | some p => x.toPlaces p
  | none => x.shortest

def scientificDecimal (x : Exact) : Option Nat → Scientific
  | some p => x.toScientific p
  | none => Scientific.ofDecimal x.shortest

def scientificText (x : Exact) (precision? : Option Nat) : List Char :=
  Notation.normalize (scientificDecimal x precision?).plainText

/-- The count of places behind the first digit that gives a count of significant digits. There is
at least one digit. -/
def placesOfDigits (p : Nat) : Nat := max p 1 - 1

/-- The least power of ten that the real mode writes in fixed notation. -/
def leastFixedPower : Int := -4

/-- The power of ten from which the real mode is scientific. -/
def realLimit : Option Nat → Nat
  | some p => max p 1
  | none => 6

/-- The count of places that a count of significant digits needs at a power of ten. -/
def placesAt (digits : Nat) (exponent : Int) : Int := digits - 1 - exponent

/-- The magnitude in the real mode. Rounded to significant digits it has a power of ten; if that is
too small or reaches the limit, it is written so. Otherwise the magnitude is rounded to places. -/
def realText (x : Exact) (precision? : Option Nat) : List Char :=
  let limit := realLimit precision?
  let rounded := (scientificDecimal x (precision?.map placesOfDigits)).plainText
  let (mantissa, exponent) := Notation.splitExponent rounded
  if exponent < leastFixedPower ∨ limit ≤ exponent then
    Notation.trimFraction mantissa ++ Notation.exponentText exponent
  else
    match precision? with
    | none => x.shortest.text
    | some _ => Notation.trimFraction (x.toPlaces (placesAt limit exponent).toNat).text

/-- The whole part of a float, kept inside the signed 64-bit range. NaN counts as zero. -/
def wholePart (v : Float) : Int :=
  match Exact.ofFloat? v with
  | some x => TwosComplement.saturate x.truncate
  | none =>
    if v.isNaN then 0
    else if v < 0 then TwosComplement.least
    else TwosComplement.greatest

def decimalText (v : Float) (magnitude : Exact → List Char) : List Char :=
  match Exact.ofFloat? v with
  | some x => signed x (magnitude x)
  | none => notFinite v

def chars (f : Format) (v : Float) : List Char :=
  match f.mode with
  | .fixed => decimalText v fun x => (fixedDecimal x f.precision?).text
  | .real => decimalText v fun x => realText x f.precision?
  | .scientific => decimalText v fun x => scientificText x f.precision?
  | .radix r => r.digits (TwosComplement.pattern (wholePart v))

def text (f : Format) (v : Float) : String :=
  String.ofList (f.chars v)

end Format

end Reckoner
