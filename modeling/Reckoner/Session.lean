import Reckoner.Command.Effect
import Reckoner.Evaluation
import Reckoner.Request

/-!
# Sessions

A session is a store of variables and an output format. It takes one line at a time: a blank line
does nothing, a line that starts with a bare word is a command, and any other line is an
expression. Expressions change the store alone, and commands change the format alone.
-/

namespace Reckoner

/-- What a line or a command gives to show. -/
inductive Outcome where
  /-- The value of an expression, as text. -/
  | value (text : String)
  /-- A text of several lines. -/
  | message (text : String)
  /-- The session should end. -/
  | leave
  /-- Nothing to show. -/
  | nothing
deriving DecidableEq, Repr

/-- Why a line has no outcome. -/
inductive LineFault where
  | command (fault : CommandFault)
  | evaluation (error : EvalError)
deriving DecidableEq, Repr

def LineFault.message : LineFault → String
  | command fault => fault.message
  | evaluation error => error.message EvalFault.message

/-- Variables and the format of output. -/
structure Session where
  store : Store := .empty
  format : Format := {}

/-- The outcome of one line, and the session afterwards. -/
structure Session.Step where
  result : Except LineFault Outcome
  session : Session

namespace Command

def outcome (c : Command) (s : Session) : Outcome :=
  match c with
  | exit => .leave
  | listing => .message (listingText s.format s.store)
  | help => .message helpText
  | fixed | real | scientific | radix _ => .nothing

end Command

namespace Session

/-- Run a command with the given numbers as arguments. A refused argument changes nothing. -/
def command (s : Session) (c : Command) (numbers : List Float) : Step :=
  match c.formatAfter numbers s.format with
  | .ok format => ⟨.ok (c.outcome s), { s with format }⟩
  | .error fault => ⟨.error (.command fault), s⟩

/-- Evaluate an expression and write its value. -/
def expression (s : Session) (text : String) : Step :=
  let evaluation := evaluate s.store text
  let result :=
    match evaluation.result with
    | .ok value => .ok (.value (s.format.text value))
    | .error e => .error (.evaluation e)
  ⟨result, { s with store := evaluation.store }⟩

def line (s : Session) (text : String) : Step :=
  if text.toList.all Text.isBlank then ⟨.ok .nothing, s⟩
  else
    match Request.ofLine? text with
    | .error fault => ⟨.error (.command fault), s⟩
    | .ok (some request) => s.command request.command (request.arguments.map Token.number)
    | .ok none => s.expression text

@[simp] theorem command_store (s : Session) (c : Command) (numbers : List Float) :
    (s.command c numbers).session.store = s.store := by
  simp only [command]
  split <;> rfl

@[simp] theorem expression_format (s : Session) (text : String) :
    (s.expression text).session.format = s.format := rfl

end Session

end Reckoner
