import Reckoner.Operator
import Reckoner.Scan
import Reckoner.Source
import Reckoner.Store

/-!
# Evaluation

An expression is evaluated in one pass over its tokens. What waits for an operand stands on a
stack: signs, operators with their left operands, open groups and open assignments. A complete
operand is reduced against the stack as far as the next token allows: signs bind first, then `^`,
then `*` and `/`, then `+` and `-`, and operators of one strength group to the left.

An assignment takes all the rest of the text as its right-hand side, so it is complete only where
the text ends. That is the only point at which the store is written: from the last assignment to
the first, and then the answer. Until then every variable has the value it had at the start.
-/

namespace Reckoner

/-- What waits for an operand. -/
inductive Frame where
  | sign (negative : Bool)
  | operation (left : Float) (op : Operator) (place : Place)
  | group
  | assignment (name : String)

namespace Frame

def isNesting : Frame → Bool
  | operation .. => false
  | _ => true

end Frame

namespace Evaluation

/-- The variable that holds the last result. -/
def answer : String := "$ans"

/-- How many signs, groups and assignments may stand inside each other. -/
def maxNesting : Nat := 256

def depth (stack : List Frame) : Nat :=
  stack.countP Frame.isNesting

def signed (negative : Bool) (value : Float) : Float :=
  if negative then -value else value

/-- Complete an operand with all signs and all operators of at least the given strength that wait
on top of the stack. -/
def reduce (strength : Nat) (value : Float) : List Frame → Except EvalError (Float × List Frame)
  | .sign negative :: below => reduce strength (signed negative value) below
  | .operation left op place :: below =>
    if strength ≤ op.strength then
      match op.apply place left value with
      | .ok result => reduce strength result below
      | .error e => .error e
    else .ok (value, .operation left op place :: below)
  | stack => .ok (value, stack)

/-- How far the pass has come. -/
inductive State where
  /-- An operand is due. -/
  | operand (stack : List Frame)
  /-- A variable was read; the next token decides whether it is assigned. -/
  | named (name : String) (stack : List Frame)
  /-- An operand is complete but for what waits for it. -/
  | operator (value : Float) (stack : List Frame)

/-- Enter one more level of nesting, if there is room. -/
def nest (frame : Frame) (stack : List Frame) (place : Place) : Except EvalError State :=
  if depth stack < maxNesting then .ok (.operand (frame :: stack))
  else .error ⟨.tooDeep, place⟩

def takeOperand (stack : List Frame) (t : Token) : Except EvalError State :=
  match t.kind with
  | .number value => .ok (.operator value stack)
  | .name text => .ok (.named text stack)
  | .plus => nest (.sign false) stack t.place
  | .minus => nest (.sign true) stack t.place
  | .leftParen => nest .group stack t.place
  | .bad fault => .error ⟨.token fault, t.place⟩
  | _ => .error ⟨.operandExpected, t.place⟩

/-- Take a token that is no operator behind an operand, once the operand is reduced. -/
def takeOther (value : Float) (stack : List Frame) (t : Token) : Except EvalError State :=
  match t.kind, stack with
  | .rightParen, .group :: outer => .ok (.operator value outer)
  | .rightParen, _ => .error ⟨.unopenedGroup, t.place⟩
  | .bad fault, _ => .error ⟨.token fault, t.place⟩
  | _, _ => .error ⟨.misplaced, t.place⟩

/-- Take a token behind an operand. The operand is reduced before the token is judged. -/
def takeOperator (value : Float) (stack : List Frame) (t : Token) : Except EvalError State :=
  match Operator.ofKind? t.kind with
  | some op => do
    let (left, below) ← reduce op.strength value stack
    return .operand (.operation left op t.place :: below)
  | none => do
    let (whole, below) ← reduce 0 value stack
    takeOther whole below t

/-- Take the next token. Variables are read from the given store. -/
def step (store : Store) (s : State) (t : Token) : Except EvalError State :=
  match s with
  | .operand stack => takeOperand stack t
  | .named name stack =>
    match t.kind with
    | .assign => nest (.assignment name) stack t.place
    | _ => takeOperator (store.value name) stack t
  | .operator value stack => takeOperator value stack t

end Evaluation

/-- The value of an expression or why it has none, and the store afterwards. -/
structure Evaluation where
  result : Except EvalError Float
  store : Store

namespace Evaluation

/-- Complete everything that waits, at the end of the text. An assignment writes the store when it
is reached; the bottom of the stack writes the answer. -/
def unwind (finish : Place) (store : Store) (value : Float) : List Frame → Evaluation
  | [] => ⟨.ok value, store.insert answer value⟩
  | .sign negative :: below => unwind finish store (signed negative value) below
  | .operation left op place :: below =>
    match op.apply place left value with
    | .ok result => unwind finish store result below
    | .error e => ⟨.error e, store⟩
  | .group :: _ => ⟨.error ⟨.unclosedGroup, finish⟩, store⟩
  | .assignment name :: below => unwind finish (store.insert name value) value below

def close (finish : Place) (store : Store) : State → Evaluation
  | .operand _ => ⟨.error ⟨.operandExpected, finish⟩, store⟩
  | .named name stack => unwind finish store (store.value name) stack
  | .operator value stack => unwind finish store value stack

/-- Take the remaining tokens, up to the first that is refused. -/
def run (finish : Place) (store : Store) (s : State) : List Token → Evaluation
  | [] => close finish store s
  | t :: rest =>
    match step store s t with
    | .ok next => run finish store next rest
    | .error e => ⟨.error e, store⟩

def ofScan (store : Store) (scan : Scan) : Evaluation :=
  run scan.finish store (.operand []) scan.tokens

end Evaluation

def evaluate (store : Store) (text : String) : Evaluation :=
  Evaluation.ofScan store (Scan.ofText text)

/-- Evaluate an expression that a source yields. A source that cannot be read leaves the store. -/
def evaluateSource (store : Store) (source : Source) : Evaluation :=
  match source.text with
  | .ok text => evaluate store text
  | .error e => ⟨.error ⟨.token e.cause, e.place⟩, store⟩

end Reckoner
