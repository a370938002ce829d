import Reckoner.Notation
import Reckoner.Proofs.DecimalText
import Reckoner.Proofs.Shortest

/-!
# Notation of decimals

What is done to the text of a number is done to the number. To drop the zeros at the end of a
fraction is to trim the decimal, and to take a number in scientific notation apart is to take its
mantissa and its exponent.
-/

-- Powers are those of the core library.
attribute [instance(2000), default_instance(20000)] instPowNat

namespace Reckoner

namespace Notation

variable {c d : Char} {text : List Char}

theorem dropEnd_append_self (c : Char) (text : List Char) :
    dropEnd c (text ++ [c]) = dropEnd c text := by
  simp [dropEnd]

theorem dropEnd_append_of_ne (h : d ≠ c) : dropEnd c (text ++ [d]) = text ++ [d] := by
  simp [dropEnd, h]

/-- A text of digits ends in no point. -/
theorem dropEnd_of_isDigit (h : ∀ d ∈ text, d.isDigit = true) : dropEnd '.' text = text := by
  induction text using List.reverseRecOn with
  | nil => rfl
  | append_singleton text d _ =>
      apply dropEnd_append_of_ne
      rintro rfl
      exact absurd (h '.' (by simp)) (by decide)

end Notation

namespace Decimal

/-! ### Fractions -/

/-- A decimal with its point, also when nothing follows the point. -/
def pointed (coefficient places : Nat) : List Char :=
  Nat.toDigits 10 (coefficient / 10 ^ places) ++ '.' :: Text.lastDigits places coefficient

theorem text_of_places {d : Decimal} (h : d.places ≠ 0) :
    d.text = pointed d.coefficient d.places := by
  have hlt : d.coefficient % 10 ^ d.places < 10 ^ d.places :=
    Nat.mod_lt _ (Nat.pow_pos (by decide))
  simp only [text, if_neg h, pointed, Text.paddedDigits_eq_lastDigits h hlt, Text.lastDigits_mod]

/-- One more place is one more digit at the end. -/
theorem pointed_succ (coefficient places : Nat) :
    pointed coefficient (places + 1) =
      pointed (coefficient / 10) places ++ [(coefficient % 10).digitChar] := by
  have hwhole : coefficient / 10 ^ (places + 1) = coefficient / 10 / 10 ^ places := by
    rw [Nat.pow_succ, Nat.mul_comm, Nat.div_div_eq_div_mul]
  rw [pointed, pointed, hwhole, Text.lastDigits_succ, List.append_assoc, List.cons_append]

theorem digitChar_ne_zero {n : Nat} (hlt : n < 10) (hne : n ≠ 0) : n.digitChar ≠ '0' := by
  interval_cases n <;> first | exact absurd rfl hne | decide

theorem digitChar_ne_point {n : Nat} (hlt : n < 10) : n.digitChar ≠ '.' := by
  interval_cases n <;> decide

/-- The zeros at the end of the text are those at the end of the fraction. -/
theorem dropEnd_pointed (coefficient places : Nat) :
    Notation.dropEnd '.' (Notation.dropEnd '0' (pointed coefficient places)) =
      (dropZeros coefficient places).text := by
  induction places generalizing coefficient with
  | zero =>
      have hdigits : ∀ c ∈ Nat.toDigits 10 coefficient, c.isDigit = true := by
        intro c hc
        exact Nat.isDigit_of_mem_toDigits (by decide) (by decide) hc
      have hpointed : pointed coefficient 0 = Nat.toDigits 10 coefficient ++ ['.'] := by
        simp [pointed, Text.lastDigits]
      rw [hpointed, Notation.dropEnd_append_of_ne (by decide), Notation.dropEnd_append_self,
        Notation.dropEnd_of_isDigit hdigits]
      simp [dropZeros, text]
  | succ places ih =>
      have hlt : coefficient % 10 < 10 := Nat.mod_lt _ (by decide)
      rw [dropZeros, pointed_succ]
      split
      · rename_i hzero
        have hchar : (coefficient % 10).digitChar = '0' := by rw [hzero]; rfl
        rw [hchar, Notation.dropEnd_append_self]
        exact ih _
      · rename_i hlast
        rw [Notation.dropEnd_append_of_ne (digitChar_ne_zero hlt hlast),
          Notation.dropEnd_append_of_ne (digitChar_ne_point hlt), ← pointed_succ]
        exact (text_of_places (d := ⟨coefficient, places + 1⟩) (Nat.succ_ne_zero _)).symm

/-- No power of ten is in the text of a decimal. -/
theorem ne_e_of_mem_text {d : Decimal} {c : Char} (h : c ∈ d.text) : c ≠ 'e' := by
  rintro rfl
  exact absurd (d.isDigit_or_point_of_mem_text 'e' h) (by decide)

/-- Only a text with places has a point. -/
theorem point_mem_text_iff (d : Decimal) : '.' ∈ d.text ↔ d.places ≠ 0 := by
  by_cases hplaces : d.places = 0
  · have hpoint : '.' ∉ Nat.toDigits 10 (d.coefficient / 10 ^ d.places) := by
      intro hmem
      exact absurd (Nat.isDigit_of_mem_toDigits (by decide) (by decide) hmem) (by decide)
    simpa [text, hplaces] using hpoint
  · simp [text, hplaces]

/-- Trimming the text is trimming the decimal. -/
theorem trimFraction_text (d : Decimal) : Notation.trimFraction d.text = d.trim.text := by
  obtain ⟨coefficient, places⟩ := d
  have hpoint : (Decimal.mk coefficient places).text.contains '.' = true ↔ places ≠ 0 :=
    List.contains_iff_mem.trans (point_mem_text_iff _)
  rw [Notation.trimFraction]
  by_cases hplaces : places = 0
  · rw [if_neg fun h => hpoint.mp h hplaces, hplaces]
    rfl
  · rw [if_pos (hpoint.mpr hplaces), text_of_places hplaces]
    exact dropEnd_pointed coefficient places

/-- The text of a trimmed decimal with a point ends in a digit that is not zero. -/
theorem getLast?_text {d : Decimal} (h : d.Trimmed) (hpoint : '.' ∈ d.text) :
    ∃ last, d.text.getLast? = some last ∧ last ≠ '0' ∧ last ≠ '.' := by
  have hplaces := (point_mem_text_iff d).mp hpoint
  have hlast := h.resolve_left hplaces
  have hlt : d.coefficient % 10 < 10 := Nat.mod_lt _ (by decide)
  obtain ⟨places, hsucc⟩ := Nat.exists_eq_succ_of_ne_zero hplaces
  refine ⟨(d.coefficient % 10).digitChar, ?_, digitChar_ne_zero hlt hlast, digitChar_ne_point hlt⟩
  rw [text_of_places hplaces, hsucc, pointed_succ]
  simp

end Decimal

namespace Scientific

/-! ### Scientific notation -/

def text (s : Scientific) : List Char :=
  s.mantissa.text ++ Notation.exponentText s.exponent

/-- The text of a number in scientific notation is split behind its mantissa. -/
theorem splitExponent_append (d : Decimal) (exponent : List Char) :
    Notation.splitExponent (d.text ++ 'e' :: exponent) =
      (d.text, (Notation.exponent? exponent).getD 0) := by
  have hmantissa : ∀ c ∈ d.text, (c != 'e') = true := by
    intro c hc
    exact bne_iff_ne.mpr (Decimal.ne_e_of_mem_text hc)
  have hexponent : ∀ c ∈ ('e' :: exponent).head?, (c != 'e') = false := by
    rintro c ⟨rfl⟩
    rfl
  rw [Notation.splitExponent, Text.dropWhile_run hmantissa hexponent,
    Text.takeWhile_run hmantissa hexponent]

/-- An exponent of 32 bits is read as it was written. -/
theorem exponent?_integerDigits {exponent : Int} (h : -2 ^ 31 ≤ exponent ∧ exponent < 2 ^ 31) :
    Notation.exponent? (Text.integerDigits exponent) = some exponent := by
  have hfits : decide (-2 ^ 31 ≤ exponent ∧ exponent < 2 ^ 31) = true := decide_eq_true h
  rw [Notation.exponent?, Text.integer?_integerDigits, Option.filter_some, if_pos hfits]

theorem splitExponent_plainText {s : Scientific}
    (h : -2 ^ 31 ≤ s.exponent ∧ s.exponent < 2 ^ 31) :
    Notation.splitExponent s.plainText = (s.mantissa.text, s.exponent) := by
  rw [plainText, splitExponent_append, exponent?_integerDigits h, Option.getD_some]

end Scientific

end Reckoner
