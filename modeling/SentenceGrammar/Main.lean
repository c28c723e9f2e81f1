import SentenceGrammar.Command.Line

/-!
# The program

Reads the script that the arguments ask for, and prints the answer.
-/
namespace SentenceGrammar

/-- All bytes of a stream. -/
partial def readStream (stream : IO.FS.Stream) (bytes : ByteArray) : IO ByteArray := do
  let more ← stream.read 65536
  if more.isEmpty then return bytes else readStream stream (bytes ++ more)

/-- What is found at a path, where `-` is the standard input. -/
def readContents (path : String) : IO Command.Contents := do
  try
    let bytes ←
      if path = "-" then readStream (← IO.getStdin) .empty else IO.FS.readBinFile path
    match String.fromUTF8? bytes with
    | some text => return .text text
    | none => return .malformed
  catch
    | .noFileOrDirectory .. => return .missing
    | .permissionDenied .. => return .denied
    | error => return .unreadable (toString error)

end SentenceGrammar

open SentenceGrammar in
def main (arguments : List String) : IO UInt32 := do
  let contents ← match Command.scriptPath? arguments with
    | some path => readContents path
    | none => pure .missing
  let isTerminal ← (← IO.getStderr).isTty
  let report := Command.answer { isTerminal, read := fun _ => contents } arguments
  (← IO.getStdout).putStr report.output
  (← IO.getStderr).putStr report.errors
  return report.status.toUInt32
