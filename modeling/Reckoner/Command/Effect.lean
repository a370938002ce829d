import Reckoner.Command
import Reckoner.Format
import Reckoner.Store

/-!
# What commands do

A command can do two things: choose another format, and show a text. The format is chosen as a
whole, so a refused precision leaves the mode as it was.
-/

namespace Reckoner

namespace Command

/-- The precision that a float stands for: a whole number up to the largest precision. Either zero
is zero. -/
def precision? (v : Float) : Option Nat :=
  match Exact.ofFloat? v with
  | none => none
  | some x =>
    let whole := x.numerator / x.denominator
    if x.numerator % x.denominator ≠ 0 then none
    else if x.negative && whole ≠ 0 then none
    else if whole ≤ Format.maxPrecision then some whole
    else none

/-- The precision of fixed and scientific output when none is given. -/
def defaultPrecision : Nat := 2

/-- The precision that the first of some numbers asks for, or the default without numbers. -/
def choosePrecision (default? : Option Nat) :
    List Float → Except CommandFault (Option Nat)
  | [] => .ok default?
  | v :: _ =>
    match precision? v with
    | some p => .ok (some p)
    | none => .error .invalidArguments

/-- A format with a mode and the precision that some numbers ask for. -/
def chooseFormat (f : Format) (mode : Mode) (default? : Option Nat) (numbers : List Float) :
    Except CommandFault Format :=
  (choosePrecision default? numbers).map (f.withMode mode).withPrecision

theorem exists_of_chooseFormat {f g : Format} {mode : Mode} {default? : Option Nat}
    {numbers : List Float} (h : chooseFormat f mode default? numbers = .ok g) :
    ∃ precision?, g = (f.withMode mode).withPrecision precision? := by
  rw [chooseFormat] at h
  cases hprecision : choosePrecision default? numbers with
  | error fault => simp [hprecision, Except.map] at h
  | ok precision? =>
    rw [hprecision] at h
    exact ⟨precision?, (Except.ok.inj h).symm⟩

/-- The format after a command with the given numbers as arguments. -/
def formatAfter (c : Command) (numbers : List Float) (f : Format) : Except CommandFault Format :=
  match c with
  | fixed => chooseFormat f .fixed (some defaultPrecision) numbers
  | real => chooseFormat f .real none numbers
  | scientific => chooseFormat f .scientific (some defaultPrecision) numbers
  | radix r => .ok (f.withMode (.radix r))
  | exit | listing | help => .ok f

def listingLine (f : Format) (entry : String × Float) : String :=
  s!"{entry.1} => {f.text entry.2}"

/-- All variables with their values in a format, a line for each. -/
def listingText (f : Format) (s : Store) : String :=
  if s.isEmpty then "No variables defined!"
  else "Variables:\n" ++ "\n".intercalate (s.toList.map (listingLine f))

end Command

end Reckoner
