import Reckoner.Token

/-!
# Commands

The commands choose how numbers are written, list the variables, show help, and leave. This module
has their names, the arguments they take and what help says about them. How a line is read as a
command is in `Reckoner.Request`, and what a command does is in `Reckoner.Command.Effect`.
-/

namespace Reckoner

inductive Command where
  | exit
  | fixed
  | real
  | scientific
  | radix (r : Radix)
  | listing
  | help
deriving DecidableEq, Repr

/-- Why a line is not a valid command. -/
inductive CommandFault where
  | notFound (name : String)
  | tooManyArguments
  | invalidArguments
  | badArgument (fault : Token.Fault)
deriving DecidableEq, Repr

def CommandFault.message : CommandFault → String
  | notFound name => s!"command not found: {name}"
  | tooManyArguments => "too many arguments"
  | invalidArguments => "command arguments are invalid"
  | badArgument fault => s!"general error parsing command: {fault.message}"

/-- The kinds of argument that commands take. -/
inductive Parameter where
  /-- A literal: the precision of a mode. -/
  | number
deriving DecidableEq, Repr

def Parameter.accepts (p : Parameter) (t : Token) : Bool :=
  match p, t.kind with
  | number, .number _ => true
  | number, _ => false

namespace Command

/-- All commands, in the order of their names. -/
def all : List Command :=
  [radix .binary, exit, fixed, help, radix .hexadecimal, radix .octal, real, scientific, listing]

def name : Command → String
  | exit => "exit"
  | fixed => "fix"
  | real => "real"
  | scientific => "sci"
  | radix .binary => "bin"
  | radix .octal => "oct"
  | radix .hexadecimal => "hex"
  | listing => "vars"
  | help => "help"

def ofName? (name : String) : Option Command :=
  all.find? fun c => c.name == name

@[simp] theorem ofName?_name (c : Command) : ofName? c.name = some c := by
  cases c with
  | radix r => cases r <;> decide
  | _ => decide

/-- The lists of arguments that a command takes. -/
def signatures : Command → List (List Parameter)
  | fixed | real | scientific => [[], [.number]]
  | exit | radix _ | listing | help => [[]]

def maxArguments (c : Command) : Nat :=
  c.signatures.foldl (fun n s => max n s.length) 0

/-- Whether tokens are a list of arguments that a command takes. -/
def accepts (c : Command) (arguments : List Token) : Bool :=
  c.signatures.any fun s =>
    s.length == arguments.length && (s.zip arguments).all fun pair => pair.1.accepts pair.2

/-- How the command is written, as help shows it. -/
def form (c : Command) : String :=
  match c with
  | fixed | real | scientific => s!"{c.name} <precision>"
  | _ => c.name

/-- What the command does, as help shows it. -/
def description : Command → String
  | exit => "Exit the calculator."
  | fixed => "Set fix point output mode with optional precision."
  | real => "Set real output mode with optional precision."
  | scientific => "Set scientific output mode with optional precision."
  | radix r => s!"Set {r.name} output mode."
  | listing => "List defined variables."
  | help => "Show help."

def formWidth : Nat :=
  all.foldl (fun n c => max n c.form.length) 0

/-- The text of help: a line for each command, the forms padded to one width. -/
def helpText : String :=
  let line (c : Command) : String :=
    c.form.pushn ' ' (formWidth - c.form.length) ++ " : " ++ c.description
  "Commands:\n" ++ "\n".intercalate (all.map line)

end Command

end Reckoner
