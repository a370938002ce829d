import Reckoner.Shell.Item

/-!
# Command lines

A command line is what the arguments ask for: a task and the options that choose the format it
starts with. The commands are `repl`, `eval`, `run` and `help`; without a command the task is the
interactive one. A wish for help or for the version, and a fault, take effect where they stand,
before anything behind them is read.
-/

namespace Reckoner.Shell

inductive Task where
  /-- Answer lines from standard input, with a prompt. -/
  | interactive
  /-- Take the arguments as lines. -/
  | expressions (lines : List String)
  /-- Take the lines of a file, or of standard input for `-`. -/
  | script (path : String)
deriving DecidableEq, Repr

structure Invocation where
  task : Task
  format : Format
deriving DecidableEq, Repr

/-- A task and the options given with it. -/
structure CommandLine where
  task : Task
  options : Options
deriving DecidableEq, Repr

def CommandLine.invocation (l : CommandLine) : Invocation := ⟨l.task, l.options.format⟩

/-- The plain arguments and the options behind a command. `takes` tells which plain arguments the
command takes, by how many came before. -/
def behindCommand (takes : Nat → String → Bool) (count : Nat) (o : Options) :
    List Item → Except Stop (List String × Options)
  | [] => .ok ([], o)
  | .option name value _ :: rest => do behindCommand takes count (← o.set name value) rest
  | .help :: _ => .error .help
  | .escape :: rest => behindCommand takes count o rest
  | .plain text :: rest => do
    if takes count text then
      let (texts, o) ← behindCommand takes (count + 1) o rest
      return (text :: texts, o)
    else .error .refused
  | .version :: _ | .faulty :: _ => .error .refused

def commandNames : List String := ["repl", "eval", "run", "help"]

/-- The task of a command, and the options among the items behind it. -/
def taskOfCommand (name : String) (rest : List Item) : Except Stop (Task × Options) :=
  match name with
  | "repl" => do
    let (_, o) ← behindCommand (fun _ _ => false) 0 {} rest
    return (.interactive, o)
  | "eval" => do
    match ← behindCommand (fun _ _ => true) 0 {} rest with
    | ([], _) => .error .refused
    | (lines, o) => return (.expressions lines, o)
  | "run" => do
    match ← behindCommand (fun count path => count == 0 && path != "") 0 {} rest with
    | (path :: _, o) => return (.script path, o)
    | ([], _) => .error .refused
  | "help" =>
    match rest with
    | [] => .error .help
    | [.plain topic] => if commandNames.contains topic then .error .help else .error .refused
    | _ => .error .refused
  | _ => .error .refused

/-- The command line that items describe, with the options found so far. An option value that is the
argument directly before a command is checked after the command has been read. -/
def commandLine (o : Options) : List Item → Except Stop CommandLine
  | [] => .ok ⟨.interactive, o⟩
  | .option name value false :: .plain word :: rest => do
    let (task, inner) ← taskOfCommand word rest
    let outer ← o.set name value
    return ⟨task, inner.orElse outer⟩
  | .option name value _ :: rest => do commandLine (← o.set name value) rest
  | .plain word :: rest => do
    let (task, inner) ← taskOfCommand word rest
    return ⟨task, inner.orElse o⟩
  | .help :: _ => .error .help
  | .version :: _ => .error .version
  | [.escape] => .ok ⟨.interactive, o⟩
  | .escape :: _ | .faulty :: _ => .error .refused

/-- The command line of some arguments, without the name of the program. -/
def CommandLine.ofArguments (arguments : List String) : Except Stop CommandLine :=
  commandLine {} (items arguments)

end Reckoner.Shell
