import Reckoner.Text.Blank
import Reckoner.Text.Numeric
import Reckoner.Token
import Reckoner.Decimal.Numeral
import Reckoner.TwosComplement

/-!
# Lexemes

The lexeme at the front of a text is found from its first character, which is not a blank, and the
characters behind it. Each kind takes the longest run that belongs to it. A malformed lexeme takes
the characters that made it so, and at least its first.
-/

namespace Reckoner

/-- The kind of a lexeme and the count of its characters behind the first. -/
structure Lexeme where
  kind : Token.Kind
  more : Nat

namespace Lexeme

/-- A variable, from what follows its `$`. The name starts with a letter; anything else stays
unread. -/
def nameAfterDollar : List Char → Lexeme
  | c :: cs =>
    if Text.isLetter c then
      let name := c :: cs.takeWhile Text.isLetterOrDigit
      ⟨.name (String.ofList ('$' :: name)), name.length⟩
    else ⟨.bad .nameless, 0⟩
  | [] => ⟨.bad .nameless, 0⟩

def decimal (cs : List Char) : Lexeme :=
  let numeral := Numeral.front cs
  let kind : Token.Kind :=
    match numeral.decimal? with
    | some d => .number d.toFloat
    | none => .bad (.notNumber (String.ofList numeral.chars))
  ⟨kind, numeral.chars.length - 1⟩

/-- The kind of a radix literal with the given digits: a pattern of 32 bits, read as signed. -/
def radixKind (r : Radix) (digits : List Char) : Token.Kind :=
  if digits.isEmpty then .bad .nameless
  else if r.numberOf digits < 2 ^ 32 then
    .number (Float.ofInt (TwosComplement.signed (r.numberOf digits)))
  else .bad (.overflow r)

/-- A radix literal, from what follows its `$`. -/
def radixLiteral (r : Radix) (cs : List Char) : Lexeme :=
  let digits := cs.takeWhile r.isDigit
  ⟨radixKind r digits, digits.length + 1⟩

def bareWord (c : Char) (cs : List Char) : Lexeme :=
  let rest := cs.takeWhile Text.isLetterOrDigit
  ⟨.word (String.ofList (c :: rest)), rest.length⟩

/-- What a letter starts: a radix literal if it is a radix letter before a `$`, else a word. -/
def afterLetter (c : Char) (cs : List Char) : Lexeme :=
  match Radix.ofLetter? c, cs with
  | some r, '$' :: rest => radixLiteral r rest
  | _, _ => bareWord c cs

/-- The lexeme at the front of a text, from its first character and the others. -/
def front (c : Char) (cs : List Char) : Lexeme :=
  match c with
  | '(' => ⟨.leftParen, 0⟩
  | ')' => ⟨.rightParen, 0⟩
  | '=' => ⟨.assign, 0⟩
  | '+' => ⟨.plus, 0⟩
  | '-' => ⟨.minus, 0⟩
  | '*' => ⟨.times, 0⟩
  | '/' => ⟨.divide, 0⟩
  | '^' => ⟨.power, 0⟩
  | '$' => nameAfterDollar cs
  | c =>
    if c.isDigit || c == '.' then decimal (c :: cs)
    else if Text.isLetter c then afterLetter c cs
    else ⟨.bad (.unexpected c), 0⟩

end Lexeme

end Reckoner
