import Reckoner.Lexeme

/-!
# Cursors

A cursor stands in a text. Pulling skips blanks and takes one lexeme, so each pull of a token
shortens what is left. At the end of the text a pull takes nothing, however often it is repeated.
-/

namespace Reckoner

/-- What is left of a text and the place of its first character. -/
structure Cursor where
  rest : List Char
  place : Place
deriving DecidableEq, Repr

namespace Cursor

def ofText (text : String) : Cursor :=
  ⟨text.toList, Place.start⟩

def advance (c : Cursor) (n : Nat) : Cursor :=
  ⟨c.rest.drop n, c.place.afterAll (c.rest.take n)⟩

@[simp] theorem advance_rest (c : Cursor) (n : Nat) : (c.advance n).rest = c.rest.drop n := rfl

@[simp] theorem advance_zero (c : Cursor) : c.advance 0 = c := by
  simp [advance]

/-- Move to the first character that is not a blank. -/
def skipBlanks (c : Cursor) : Cursor :=
  c.advance (c.rest.takeWhile Text.isBlank).length

/-- Take the next token, or none at the end of the text. -/
def pull (c : Cursor) : Option Token × Cursor :=
  let here := c.skipBlanks
  match here.rest with
  | [] => (none, here)
  | first :: others =>
    let lexeme := Lexeme.front first others
    (some ⟨lexeme.kind, here.place⟩, here.advance (lexeme.more + 1))

/-- A pulled token leaves less text behind. -/
theorem length_lt_of_pull {c d : Cursor} {t : Token} (h : c.pull = (some t, d)) :
    d.rest.length < c.rest.length := by
  have hskip : c.skipBlanks.rest.length ≤ c.rest.length := by simp [skipBlanks]
  rw [pull] at h
  split at h
  · simp at h
  · rename_i first others hrest
    rw [hrest] at hskip
    simp only [Prod.mk.injEq] at h
    rw [← h.2]
    simp only [advance_rest, hrest, List.length_drop, List.length_cons] at hskip ⊢
    omega

end Cursor

end Reckoner
