import Reckoner.Proofs.Arguments
import Reckoner.Proofs.Transcript

/-!
# Expressions and scripts are one pass

Lines can be given to the program as arguments, or as a script that holds each of them with a
newline behind it. Both are the same pass over the same history: the lines in front of the first
that fails or leaves are shown, and one that fails is reported. The reports differ only in what they
name in front of the error: the line itself, or its number in the script, behind the warning that a
script logs.

A line has no newline in it, so all its errors are on the first line of its text.
-/

namespace Reckoner

/-! ### Lines of a written script -/

namespace Text

end Text

/-! ### Places on the first line -/

variable {store : Store} {text : String} {e : EvalError}

namespace Shell

/-! ### A pass and its history -/

variable {label : Nat → String → String} {s : Session} {line : String}

/-- The bytes of a script: those of standard input for `-`, and else of a file. -/
def World.script (w : World) (path : String) : Except String ByteArray :=
  if path = "-" then .ok w.input else w.file path

variable {w : World} {f : Format} {path : String} {lines : List String}

variable {read : ArgumentReader}

end Shell

end Reckoner
