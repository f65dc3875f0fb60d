import Outline.Command

/-!
# The program

Reads the command line and standard input, runs the command and prints what it leaves behind.
-/

partial def readAll (stream : IO.FS.Stream) (bytes : ByteArray) : IO ByteArray := do
  let more ← stream.read 65536
  if more.isEmpty then return bytes else readAll stream (bytes ++ more)

def main (args : List String) : IO UInt32 := do
  let stdin ← IO.getStdin
  let input ←
    if ← stdin.isTty then pure none
    else pure (some (← readAll stdin ByteArray.empty).toList)
  let outcome := Outline.Command.runWords Outline.Registry.builtin args input
  (← IO.getStdout).putStr outcome.stdout
  (← IO.getStderr).putStr outcome.stderr
  return outcome.code.toUInt32
