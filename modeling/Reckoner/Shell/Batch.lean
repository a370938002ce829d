import Reckoner.Shell.Report
import Reckoner.Text.Lines

/-!
# Expressions and scripts

Expressions given as arguments and the lines of a script are one and the same pass over lines in
one session. It stops at the first error or at the command to leave. The two differ only in what
they name as the place of an error, and in that a script logs a warning before it reports one.
-/

namespace Reckoner.Shell

/-- Take lines in order up to the first error or the command to leave. Each line comes with what is
written in front of its error. -/
def batch (s : Session) : List (String × String) → Report
  | [] => {}
  | (label, line) :: rest =>
    let step := s.line line
    match step.result with
    | .ok (.value text) | .ok (.message text) => (batch step.session rest).after (text ++ "\n")
    | .ok .nothing => batch step.session rest
    | .ok .leave => {}
    | .error fault => { code := 1, err := s!"{label}: {describe fault}\n" }

/-- The lines of an expression run name themselves. -/
def expressionLabels (lines : List String) : List (String × String) :=
  lines.map fun line => (line, line)

/-- A line of a script is named by the path and its number, behind the warning that the script
stops at it. -/
def scriptLabel (log : Log) (path : String) (n : Nat) : String :=
  log.warning "stopping at failed line" n ++ s!"{path}:{n}"

def scriptLabels (log : Log) (path text : String) : List (String × String) :=
  (Text.lines text).zipIdx 1 |>.map fun (line, n) => (scriptLabel log path n, line)

def scriptText (log : Log) (s : Session) (path text : String) : Report :=
  batch s (scriptLabels log path text)

end Reckoner.Shell
