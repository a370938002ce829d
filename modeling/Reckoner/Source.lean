import Reckoner.Token

/-!
# Sources of text

A text may come from a source of bytes that can fail. Reading takes all bytes first: a failure of
the source wins over bytes that are no text, and both are reported at the start of the text.
-/

namespace Reckoner

/-- The bytes that a source yields and, if it then fails, the reason it gives. -/
structure Source where
  bytes : ByteArray
  failure? : Option String

/-- Why bytes that are not UTF-8 cannot be read as text. -/
def Source.notText : String := "stream did not contain valid UTF-8"

/-- Bytes as text, if they are UTF-8. -/
def Source.decode (bytes : ByteArray) : Except String String :=
  match String.fromUTF8? bytes with
  | some text => .ok text
  | none => .error notText

def Source.text (s : Source) : Except TokenError String :=
  let read : Except String String :=
    match s.failure? with
    | some reason => .error reason
    | none => decode s.bytes
  read.mapError fun reason => ⟨.unreadable reason, Place.start⟩

end Reckoner
