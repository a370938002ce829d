/-!
# Places in a text

A place is a line and a column, both counted from one; a column counts characters. A cause of
failure together with its place is what the calculator reports.
-/

namespace Reckoner

structure Place where
  line : Nat
  column : Nat
deriving DecidableEq, Repr

namespace Place

def start : Place := ⟨1, 1⟩

/-- The place behind a character. A newline starts the next line. -/
def after (p : Place) (c : Char) : Place :=
  if c = '\n' then ⟨p.line + 1, 1⟩ else ⟨p.line, p.column + 1⟩

def afterAll (p : Place) (cs : List Char) : Place :=
  cs.foldl after p

@[simp] theorem afterAll_nil (p : Place) : p.afterAll [] = p := rfl

@[simp] theorem afterAll_cons (p : Place) (c : Char) (cs : List Char) :
    p.afterAll (c :: cs) = (p.after c).afterAll cs := rfl

@[simp] theorem afterAll_append (p : Place) (cs ds : List Char) :
    p.afterAll (cs ++ ds) = (p.afterAll cs).afterAll ds := by
  simp [afterAll, List.foldl_append]

end Place

/-- A cause of failure and the place where it was found. -/
structure Located (α : Type) where
  cause : α
  place : Place
deriving DecidableEq, Repr

/-- The text of a located cause: that of the cause, then its line and column. -/
def Located.message (describe : α → String) (e : Located α) : String :=
  s!"{describe e.cause} at line {e.place.line}, column {e.place.column}"

end Reckoner
