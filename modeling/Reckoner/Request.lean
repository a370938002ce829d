import Reckoner.Command
import Reckoner.Scan

/-!
# Requests

A line whose first token is a bare word is a request: a command with its arguments. The word is
looked up before the arguments are read, and the arguments are read from left to right, so of
several faults in a line the first that this order meets is reported.
-/

namespace Reckoner

structure Request where
  command : Command
  arguments : List Token
deriving DecidableEq

namespace Request

/-- The tokens of a list of arguments, with room for so many. A malformed token is found before
the room is. -/
def collect : Nat → List Token → Except CommandFault (List Token)
  | _, [] => .ok []
  | room, t :: rest =>
    match t.fault?, room with
    | some fault, _ => .error (.badArgument fault)
    | none, 0 => .error .tooManyArguments
    | none, room + 1 => (collect room rest).map (t :: ·)

/-- The request that tokens make, or none if they do not start with a bare word. -/
def ofTokens? : List Token → Except CommandFault (Option Request)
  | [] => .ok none
  | first :: rest =>
    match first.kind with
    | .word name =>
      match Command.ofName? name with
      | none => .error (.notFound name)
      | some command =>
        match collect command.maxArguments rest with
        | .error fault => .error fault
        | .ok arguments =>
          if command.accepts arguments then .ok (some ⟨command, arguments⟩)
          else .error .invalidArguments
    | _ => .ok none

/-- The request that a line makes, or none if it is an expression. -/
def ofLine? (line : String) : Except CommandFault (Option Request) :=
  ofTokens? (Scan.ofText line).tokens

end Request

end Reckoner
