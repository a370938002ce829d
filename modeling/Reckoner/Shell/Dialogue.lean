import Reckoner.Shell.Report
import Reckoner.Source

/-!
# The interactive run

Each line of input is answered behind a prompt, with its newline still on it. Bytes that are not
text are found when their line is reached, so the answers before it stand. Errors of a line are
answers too, and the dialogue goes on.
-/

namespace Reckoner.Shell

def greeting : String :=
  s!"{programName} version {programVersion}\n\nType 'exit' and ENTER to quit.\n"

def prompt : String := s!"{programName} >> "

/-- What one line of input leads to: output and another prompt, or the end. -/
inductive Turn where
  | goOn (out : String) (session : Session)
  | stop (report : Report)

/-- Answer one line of input, which still has its newline. -/
def turn (s : Session) (bytes : ByteArray) : Turn :=
  match Source.decode bytes with
  | .error reason => .stop (failure reason)
  | .ok line =>
    let step := s.line line
    match step.result with
    | .ok (.value text) | .ok (.message text) => .goOn (text ++ "\n") step.session
    | .ok .nothing => .goOn "" step.session
    | .ok .leave => .stop {}
    | .error fault => .goOn (describe fault ++ "\n") step.session

def endOfInput : Report := { out := "\n" }

def dialogue (s : Session) : List ByteArray → Report
  | [] => endOfInput.after prompt
  | line :: rest =>
    match turn s line with
    | .goOn out next => ((dialogue next rest).after out).after prompt
    | .stop report => report.after prompt

end Reckoner.Shell
