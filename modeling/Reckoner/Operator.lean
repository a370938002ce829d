import Reckoner.Token

/-!
# Operators

The binary operators, how strongly they bind, and their arithmetic. A division by zero has no
value; with it come the other reasons why an expression can have none.
-/

namespace Reckoner

/-- Why an expression has no value. -/
inductive EvalFault where
  /-- A number, a variable, a sign or a `(` should stand here. -/
  | operandExpected
  /-- A token that cannot follow a complete operand. -/
  | misplaced
  /-- The right operand of a division is zero. -/
  | zeroDivisor
  /-- The text ends inside a group. -/
  | unclosedGroup
  /-- A `)` that closes nothing. -/
  | unopenedGroup
  /-- More signs, groups and assignments inside each other than allowed. -/
  | tooDeep
  /-- A malformed token. -/
  | token (fault : Token.Fault)
deriving DecidableEq, Repr

/-- The text of a fault, without its place. -/
def EvalFault.message : EvalFault → String
  | operandExpected => "primary expected"
  | misplaced => "syntax error"
  | zeroDivisor => "divide by zero"
  | unclosedGroup => "')' expected"
  | unopenedGroup => "unexpected ')'"
  | tooDeep => "expression nested too deeply"
  | token fault => fault.message

abbrev EvalError := Located EvalFault

inductive Operator where
  | add
  | subtract
  | multiply
  | divide
  | power
deriving DecidableEq, Repr

namespace Operator

def strength : Operator → Nat
  | add | subtract => 1
  | multiply | divide => 2
  | power => 3

/-- The operator that a token stands for behind an operand. -/
def ofKind? : Token.Kind → Option Operator
  | .plus => some add
  | .minus => some subtract
  | .times => some multiply
  | .divide => some divide
  | .power => some power
  | _ => none

/-- The value of an operation at the given place. Either zero is refused as a divisor. -/
def apply (op : Operator) (place : Place) (left right : Float) : Except EvalError Float :=
  match op with
  | add => .ok (left + right)
  | subtract => .ok (left - right)
  | multiply => .ok (left * right)
  | divide => if right == 0 then .error ⟨.zeroDivisor, place⟩ else .ok (left / right)
  | power => .ok (left.pow right)

end Operator

end Reckoner
