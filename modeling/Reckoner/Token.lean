import Reckoner.Place
import Reckoner.Radix

/-!
# Tokens

A token is a piece of a text with its kind and its place. Malformed text is a token too, with the
fault that made it so; reading goes on behind it. The end of a text is not a token.
-/

namespace Reckoner

/-- What can be wrong with a piece of text, or with reading a text at all. -/
inductive Token.Fault where
  /-- No token starts with this character. -/
  | unexpected (c : Char)
  /-- A `$` without a name, or a radix literal without digits. -/
  | nameless
  /-- The text of a decimal literal without digits. -/
  | notNumber (text : String)
  /-- A radix literal that does not fit in 32 bits. -/
  | overflow (radix : Radix)
  /-- The text could not be read. -/
  | unreadable (reason : String)
deriving DecidableEq, Repr

/-- The text of a fault, without its place. -/
def Token.Fault.message : Token.Fault → String
  | unexpected c => s!"unexpected character: {c}"
  | nameless => "identifiers must begin with a letter and have a non-zero length"
  | notNumber text => s!"invalid number: {text}"
  | overflow radix => s!"{radix.name} value too large"
  | unreadable reason => s!"general error reading input: {reason}"

inductive Token.Kind where
  | bad (fault : Token.Fault)
  | leftParen
  | rightParen
  | assign
  | plus
  | minus
  | times
  | divide
  | power
  /-- A variable; its name begins with `$`. -/
  | name (text : String)
  | number (value : Float)
  /-- A bare word, the name of a command. -/
  | word (text : String)
deriving DecidableEq

/-- A piece of text by its kind and the place of its first character. -/
structure Token where
  kind : Token.Kind
  place : Place
deriving DecidableEq

abbrev TokenError := Located Token.Fault

namespace Token

/-- The text that a token carries: the name of a variable or a word. -/
def text (t : Token) : String :=
  match t.kind with
  | .name text | .word text => text
  | _ => ""

/-- The number that a token carries; a token that is no literal carries zero. -/
def number (t : Token) : Float :=
  match t.kind with
  | .number value => value
  | _ => 0

def fault? (t : Token) : Option Fault :=
  match t.kind with
  | .bad fault => some fault
  | _ => none

theorem fault?_eq_some_iff {t : Token} {fault : Fault} :
    t.fault? = some fault ↔ t.kind = .bad fault := by
  cases h : t.kind <;> simp [fault?, h]

theorem fault?_eq_none_iff {t : Token} : t.fault? = none ↔ ∀ fault, t.kind ≠ .bad fault := by
  cases h : t.kind <;> simp [fault?, h]

end Token

end Reckoner
