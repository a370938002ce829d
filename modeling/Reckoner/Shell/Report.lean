import Reckoner.Session

/-!
# What a run of the program writes

A run ends with an exit code and has written text to standard output and to standard error. What it
logs is written to standard error too.
-/

namespace Reckoner.Shell

def programName : String := "rcalc"

def programVersion : String := "0.1.0"

/-- How a run logs its warnings. A filter drops them or lets them pass, and drops all that is less
than a warning. One that passes has a record on standard error, made of a message and the number of
the line that it is about. -/
structure Log where
  passes : Bool
  record : String → Nat → String

namespace Log

def off : Log := ⟨false, fun _ _ => ""⟩

/-- What a warning writes to standard error. -/
def warning (l : Log) (message : String) (line : Nat) : String :=
  if l.passes then l.record message line else ""

end Log

/-- The exit code and the texts of standard output and standard error. -/
structure Report where
  code : Nat := 0
  out : String := ""
  err : String := ""
deriving DecidableEq, Repr

/-- A report with more output in front. -/
def Report.after (out : String) (r : Report) : Report := { r with out := out ++ r.out }

/-- The text for a line without outcome. -/
def describe (fault : LineFault) : String :=
  match fault with
  | .command _ => s!"COMMAND ERROR: {fault.message}"
  | .evaluation _ => s!"ERROR: {fault.message}"

/-- The report of a program that cannot go on. -/
def failure (reason : String) : Report :=
  { code := 1, err := s!"{programName}: {reason}\n" }

end Reckoner.Shell
