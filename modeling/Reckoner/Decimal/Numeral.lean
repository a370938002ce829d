import Reckoner.Decimal

/-!
# Decimal literals

A decimal literal is a run of ASCII digits with at most one point. A second point ends it. Only a
point that stands alone is no number.
-/

namespace Reckoner

/-- The characters of a decimal literal: its whole part, and what follows its point if it has
one. -/
structure Numeral where
  whole : List Char
  fraction? : Option (List Char)
deriving DecidableEq, Repr

namespace Numeral

/-- The longest decimal literal at the front of some text. -/
def front (cs : List Char) : Numeral :=
  let whole := cs.takeWhile Char.isDigit
  match cs.dropWhile Char.isDigit with
  | '.' :: rest => ⟨whole, some (rest.takeWhile Char.isDigit)⟩
  | _ => ⟨whole, none⟩

def chars (n : Numeral) : List Char :=
  match n.fraction? with
  | some fraction => n.whole ++ '.' :: fraction
  | none => n.whole

def digits (n : Numeral) : List Char :=
  n.whole ++ n.fraction?.getD []

/-- The decimal that the literal denotes, when it has a digit. -/
def decimal? (n : Numeral) : Option Decimal :=
  if n.digits.isEmpty then none
  else some ⟨Text.numberOf 10 n.digits, (n.fraction?.getD []).length⟩

/-- The literal is the front of its text and nothing else. -/
theorem chars_append_front (cs : List Char) : ∃ rest, (front cs).chars ++ rest = cs := by
  rw [front]
  split
  · rename_i rest h
    refine ⟨rest.dropWhile Char.isDigit, ?_⟩
    have hsplit := List.takeWhile_append_dropWhile (p := Char.isDigit) (l := cs)
    rw [h] at hsplit
    simp [chars, List.takeWhile_append_dropWhile, hsplit]
  · exact ⟨cs.dropWhile Char.isDigit, by simp [chars, List.takeWhile_append_dropWhile]⟩

end Numeral

end Reckoner
