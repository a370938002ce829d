import Reckoner.Shell.Batch
import Reckoner.Shell.Dialogue
import Reckoner.Shell.Invocation

/-!
# Whole runs

A run is a function of its arguments and of what it finds around it: standard input, files and the
log. The arguments are read first. Whoever reads them also answers the wish for help or for the
version, and refuses what is no invocation.
-/

namespace Reckoner.Shell

/-- What a run finds around it: the bytes of standard input, the bytes of files or the reason why
there are none, and the log. -/
structure World where
  input : ByteArray
  file : String → Except String ByteArray
  log : Log

/-- Run a script. An unreadable file has an exit code of its own. -/
def script (w : World) (s : Session) (path : String) : Report :=
  if path == "-" then
    match Source.decode w.input with
    | .ok text => scriptText w.log s path text
    | .error reason => failure reason
  else
    match w.file path >>= Source.decode with
    | .ok text => scriptText w.log s path text
    | .error reason => { code := 2, err := s!"{path}: {reason}\n" }

def perform (w : World) (i : Invocation) : Report :=
  let s : Session := { format := i.format }
  match i.task with
  | .interactive => (dialogue s (Text.byteLines w.input)).after greeting
  | .expressions lines => batch s (expressionLabels lines)
  | .script path => script w s path

/-- A reader of arguments finds a command line, or reports why there is none. -/
abbrev ArgumentReader := List String → Except Report CommandLine

def report (read : ArgumentReader) (w : World) (arguments : List String) : Report :=
  match read arguments with
  | .ok line => perform w line.invocation
  | .error stopped => stopped

def aboutText : String := "rcalc - arithmetic calculator with variables and radix literals
"

/-- The report of a run that ends with its arguments. What else a reader says of them is its own. -/
def Stop.report : Stop → Report
  | help => { out := aboutText }
  | version => { out := s!"{programName} {programVersion}\n" }
  | refused => { code := 2 }

def readArguments : ArgumentReader := fun arguments =>
  (CommandLine.ofArguments arguments).mapError Stop.report

end Reckoner.Shell
