/-!
# Numbers as digits

Natural numbers are written in a base with the digits `0` to `9` and `a` to `f`, and read back in
either letter case. Writing is core's `Nat.toDigits`; this module adds padding and reading, and the
reading of whole texts as decimal integers.
-/

namespace Reckoner.Text

/-- The value of a digit of a base of at most sixteen, in either letter case. -/
def digitValue? (c : Char) : Option Nat :=
  if '0' ≤ c ∧ c ≤ '9' then some (c.toNat - '0'.toNat)
  else if 'a' ≤ c ∧ c ≤ 'f' then some (c.toNat - 'a'.toNat + 10)
  else if 'A' ≤ c ∧ c ≤ 'F' then some (c.toNat - 'A'.toNat + 10)
  else none

/-- The characters with a value as digits are the decimal digits and the letters up to `f`. -/
theorem range_of_digitValue? {c : Char} {n : Nat} (h : digitValue? c = some n) :
    (0x30 ≤ c.toNat ∧ c.toNat ≤ 0x39 ∧ n = c.toNat - 0x30) ∨
      (0x61 ≤ c.toNat ∧ c.toNat ≤ 0x66 ∧ n = c.toNat - 0x61 + 10) ∨
      (0x41 ≤ c.toNat ∧ c.toNat ≤ 0x46 ∧ n = c.toNat - 0x41 + 10) := by
  simp only [digitValue?, Char.le_def, UInt32.le_iff_toNat_le] at h
  change (if 0x30 ≤ c.toNat ∧ c.toNat ≤ 0x39 then some (c.toNat - 0x30) else
    if 0x61 ≤ c.toNat ∧ c.toNat ≤ 0x66 then some (c.toNat - 0x61 + 10) else
    if 0x41 ≤ c.toNat ∧ c.toNat ≤ 0x46 then some (c.toNat - 0x41 + 10) else none) = some n at h
  split at h
  · rename_i hdigit
    exact .inl ⟨hdigit.1, hdigit.2, (Option.some.inj h).symm⟩
  · split at h
    · rename_i hlower
      exact .inr (.inl ⟨hlower.1, hlower.2, (Option.some.inj h).symm⟩)
    · split at h
      · rename_i hupper
        exact .inr (.inr ⟨hupper.1, hupper.2, (Option.some.inj h).symm⟩)
      · cases h

def isDigitOf (base : Nat) (c : Char) : Bool :=
  (digitValue? c).any (· < base)

/-- The number that digits of a base denote, the most significant first. -/
def numberOf (base : Nat) (digits : List Char) : Nat :=
  digits.foldl (fun n c => n * base + (digitValue? c).getD 0) 0

@[simp] theorem numberOf_nil (base : Nat) : numberOf base [] = 0 := rfl

/-- One more digit at the end. -/
theorem numberOf_append_singleton (base : Nat) (digits : List Char) (c : Char) :
    numberOf base (digits ++ [c]) = numberOf base digits * base + (digitValue? c).getD 0 := by
  simp [numberOf, List.foldl_append]

/-- The digits of a number, with zeros in front up to a least width. -/
def paddedDigits (base width n : Nat) : List Char :=
  (Nat.toDigits base n).leftpad width '0'

/-- A padded numeral is as wide as asked, or as wide as the number needs. -/
theorem length_paddedDigits (base width n : Nat) :
    (paddedDigits base width n).length = max width (Nat.toDigits base n).length := by
  simp [paddedDigits, List.leftpad]
  omega

def integerDigits (i : Int) : List Char :=
  if i < 0 then '-' :: Nat.toDigits 10 i.natAbs else Nat.toDigits 10 i.natAbs

def natural? (digits : List Char) : Option Nat :=
  if digits.isEmpty || digits.any (! ·.isDigit) then none
  else some (numberOf 10 digits)

/-- The integer of a text: digits, with one sign in front at most. -/
def integer? : List Char → Option Int
  | '-' :: digits => (natural? digits).map fun n : Nat => -(n : Int)
  | '+' :: digits => (natural? digits).map Int.ofNat
  | digits => (natural? digits).map Int.ofNat

end Reckoner.Text
