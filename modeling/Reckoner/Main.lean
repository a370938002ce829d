import Reckoner.Shell.Program

/-!
# The program

Reads arguments, standard input and files, and writes what the shell reports. The interactive run
writes each answer as soon as its line was read.
-/

namespace Reckoner.Shell

/-- Write a report and give its exit code. -/
def Report.write (r : Report) : IO UInt32 := do
  (← IO.getStdout).putStr r.out
  (← IO.getStdout).flush
  (← IO.getStderr).putStr r.err
  return UInt32.ofNat r.code

/-- Read bytes up to and with the next newline. -/
partial def readLine (input : IO.FS.Stream) (line : ByteArray) : IO ByteArray := do
  let byte ← input.read 1
  if byte.isEmpty then return line
  if byte.data == #[10] then return line ++ byte
  readLine input (line ++ byte)

/-- Answer lines until the input or the dialogue ends. -/
partial def converse (input output : IO.FS.Stream) (s : Session) : IO UInt32 := do
  output.putStr prompt
  output.flush
  let line ← readLine input ByteArray.empty
  if line.isEmpty then return ← endOfInput.write
  match turn s line with
  | .goOn out next =>
    output.putStr out
    converse input output next
  | .stop report => report.write

partial def readAll (input : IO.FS.Stream) (bytes : ByteArray) : IO ByteArray := do
  let more ← input.read 65536
  if more.isEmpty then return bytes
  readAll input (bytes ++ more)

/-- The text of an error of reading a file: the words and the number of the operating system. -/
def errorText : IO.Error → String
  | .noFileOrDirectory _ code words | .permissionDenied _ code words
  | .inappropriateType _ code words | .invalidArgument _ code words
  | .resourceExhausted _ code words | .noSuchThing _ code words =>
    s!"{words.capitalize} (os error {code.toInt32.toInt.natAbs})"
  | e => toString e

/-- The bytes of a file, or why there are none. -/
def readFile (path : String) : IO (Except String ByteArray) := do
  try
    return .ok (← IO.FS.readBinFile path)
  catch e => return .error (errorText e)

/-- Warnings pass, each on a line of its own. -/
def log : Log := ⟨true, fun message line => s!" WARN {message} line={line}\n"⟩

/-- Do what an invocation asks for, reading only what it needs. -/
def execute (i : Invocation) : IO UInt32 := do
  let input ← IO.getStdin
  match i.task with
  | .interactive =>
    (← IO.getStdout).putStr greeting
    converse input (← IO.getStdout) { format := i.format }
  | .expressions _ =>
    (perform ⟨ByteArray.empty, fun path => .error path, log⟩ i).write
  | .script path =>
    if path == "-" then
      (perform ⟨← readAll input ByteArray.empty, fun path => .error path, log⟩ i).write
    else
      let content ← readFile path
      (perform ⟨ByteArray.empty, fun _ => content, log⟩ i).write

end Reckoner.Shell

def main (arguments : List String) : IO UInt32 :=
  match Reckoner.Shell.readArguments arguments with
  | .ok line => Reckoner.Shell.execute line.invocation
  | .error stopped => stopped.write
