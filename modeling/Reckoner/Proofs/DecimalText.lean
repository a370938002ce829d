import Reckoner.Proofs.Digits
import Reckoner.Proofs.Spelling

/-!
# Decimals as literals

The text of a decimal is a decimal literal of the same decimal: the same digits with the same count
of places. The literal is read whole before any text that continues it with neither a digit nor a
point. A power of ten starts with a letter, so it is such a text.
-/

-- Powers are those of the core library.
attribute [instance(2000), default_instance(20000)] instPowNat

namespace Reckoner

namespace Decimal

def numeral (d : Decimal) : Numeral :=
  ⟨Nat.toDigits 10 (d.coefficient / 10 ^ d.places),
    if d.places = 0 then none
    else some (Text.paddedDigits 10 d.places (d.coefficient % 10 ^ d.places))⟩

variable (d : Decimal)

theorem chars_numeral : d.numeral.chars = d.text := by
  rw [numeral, text]
  split <;> rfl

theorem isDigit_of_mem_paddedDigits {width n : Nat} {c : Char}
    (h : c ∈ Text.paddedDigits 10 width n) : c.isDigit = true := by
  rw [Text.paddedDigits, List.leftpad] at h
  obtain h | h := List.mem_append.mp h
  · rw [List.eq_of_mem_replicate h]
    rfl
  · exact Nat.isDigit_of_mem_toDigits (by decide) (by decide) h

theorem isDigit_of_mem_numeral : ∀ c ∈ d.numeral.digits, c.isDigit = true := by
  intro c hc
  rw [Numeral.digits, numeral] at hc
  obtain hwhole | hfraction := List.mem_append.mp hc
  · exact Nat.isDigit_of_mem_toDigits (by decide) (by decide) hwhole
  · simp only at hfraction
    split at hfraction
    · simp at hfraction
    · exact isDigit_of_mem_paddedDigits hfraction

/-- A fraction is written with all its places. -/
theorem length_fraction (h : d.places ≠ 0) :
    (Text.paddedDigits 10 d.places (d.coefficient % 10 ^ d.places)).length = d.places := by
  have hlt : d.coefficient % 10 ^ d.places < 10 ^ d.places :=
    Nat.mod_lt _ (Nat.pow_pos (by decide))
  have hlength := (Nat.length_toDigits_le_iff (by decide) (Nat.pos_of_ne_zero h)).mpr hlt
  rw [Text.length_paddedDigits]
  omega

/-- The literal denotes the decimal. -/
theorem decimal?_numeral : d.numeral.decimal? = some d := by
  have hne : d.numeral.digits ≠ [] := by
    simp [Numeral.digits, numeral]
  rw [Numeral.decimal?, if_neg (by simpa using hne)]
  obtain ⟨coefficient, places⟩ := d
  simp only [Numeral.digits, numeral]
  split
  · rename_i hzero
    simp [hzero, Text.numberOf_toDigits]
  · rename_i hplaces
    have hlength := length_fraction ⟨coefficient, places⟩ hplaces
    simp only at hlength
    rw [Option.getD_some, Text.numberOf_append, Text.numberOf_toDigits (by decide) (by decide),
      Text.numberOf_paddedDigits (by decide) (by decide), hlength, Nat.div_add_mod']

/-- The text starts with a digit. -/
theorem exists_text_eq_cons : ∃ first others, d.text = first :: others ∧ first.isDigit = true := by
  cases hwhole : Nat.toDigits 10 (d.coefficient / 10 ^ d.places) with
  | nil => exact absurd hwhole Nat.toDigits_ne_nil
  | cons first whole =>
      have hfirst : first.isDigit = true := by
        apply Nat.isDigit_of_mem_toDigits (b := 10) (n := d.coefficient / 10 ^ d.places)
          (by decide) (by decide)
        simp [hwhole]
      rw [text, hwhole]
      split
      · exact ⟨first, whole, rfl, hfirst⟩
      · exact ⟨first, _, rfl, hfirst⟩

/-- The text of a decimal is one lexeme, a number, before text that ends a literal. -/
theorem exists_segment : ∃ g : Segment, g.chars = d.text ∧ g.blanks = [] ∧
    g.kind = .number d.toFloat ∧ ∀ rest, EndsNumeral rest → g.ReadsBefore rest := by
  obtain ⟨first, others, htext, hfirst⟩ := d.exists_text_eq_cons
  refine ⟨⟨[], first, others, .number d.toFloat, by simp,
    Spelling.isBlank_of_isDigit hfirst⟩, htext.symm, rfl, rfl, ?_⟩
  intro rest hrest
  have hfront := Numeral.front_chars_append hrest d.isDigit_of_mem_numeral
  rw [chars_numeral, htext, List.cons_append] at hfront
  rw [Segment.ReadsBefore, Lexeme.front_decimal (by simp [hfirst])]
  simp only [Lexeme.decimal, hfront, decimal?_numeral, chars_numeral, htext, List.length_cons,
    Nat.add_sub_cancel]

/-- The text of a decimal holds digits and points only. -/
theorem isDigit_or_point_of_mem_text : ∀ c ∈ d.text, (c.isDigit || c == '.') = true := by
  rw [← chars_numeral]
  exact Spelling.isDigit_or_point_of_mem_chars d.isDigit_of_mem_numeral

end Decimal

end Reckoner
