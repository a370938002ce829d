/-!
# Lines

A text is cut behind each newline. The pieces keep their newline and join to the text again. The
lines of a script are the pieces without their ends: a newline, with a carriage return before it
if there is one. A last piece without newline is a line as it stands.
-/

namespace Reckoner.Text

/-- The pieces of a list, each up to and with the next element that ends a piece. -/
def pieces {α : Type} (ends : α → Bool) : List α → List (List α)
  | [] => []
  | x :: xs =>
    if ends x then [x] :: pieces ends xs
    else
      match pieces ends xs with
      | [] => [[x]]
      | p :: ps => (x :: p) :: ps

/-- Nothing is lost between the pieces. -/
@[simp] theorem flatten_pieces {α : Type} (ends : α → Bool) (xs : List α) :
    (pieces ends xs).flatten = xs := by
  induction xs with
  | nil => rfl
  | cons x xs ih =>
    rw [pieces]
    split
    · simp [ih]
    · split
      · rename_i h
        rw [h] at ih
        simp [← ih]
      · rename_i h
        rw [h] at ih
        simp [← ih]

/-- A piece without its line end. -/
def dropLineEnd (piece : List Char) : List Char :=
  match piece.reverse with
  | '\n' :: '\r' :: rest => rest.reverse
  | '\n' :: rest => rest.reverse
  | _ => piece

def lines (text : String) : List String :=
  (pieces (· == '\n') text.toList).map fun piece => String.ofList (dropLineEnd piece)

/-- Bytes cut behind each newline byte. -/
def byteLines (bytes : ByteArray) : List ByteArray :=
  (pieces (· == 10) bytes.toList).map fun piece => ⟨piece.toArray⟩

end Reckoner.Text
