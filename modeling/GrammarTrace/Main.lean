import GrammarTrace.CommandLine.Reading
import GrammarTrace.Directory
import GrammarTrace.Session

/-!
# The program

The program reads its command line, the file with the rules and, where it is asked to, standard
input, and writes what the session leaves behind.
-/

namespace GrammarTrace.Main

/-- The failure that an error of the file system stands for. -/
def failureOf : IO.Error → FileFailure
  | .noFileOrDirectory .. => .notFound
  | .inappropriateType .. => .notADirectory
  | .permissionDenied .. => ⟨.permissionDenied, "Permission denied (os error 13)"⟩
  | e => ⟨.other, toString e⟩

/-- Open a file and read it. -/
def openFile (path : String) : IO (Except FileFailure ByteArray) := do
  try
    return .ok (← IO.FS.readBinFile path)
  catch e =>
    return .error (failureOf e)

/-- Read a stream to its end, after the bytes read so far. -/
partial def readRest (stream : IO.FS.Stream) (bytes : ByteArray) : IO ByteArray := do
  let chunk ← stream.read 65536
  if chunk.isEmpty then return bytes else readRest stream (bytes ++ chunk)

/-- Write a response. -/
def emit (response : Response) : IO UInt32 := do
  (← IO.getStderr).putStr response.errors
  let out ← IO.getStdout
  out.putStr response.output
  out.flush
  return UInt32.ofNat response.exitCode

end GrammarTrace.Main

open GrammarTrace

/-- Carry out a command line. -/
def main (arguments : List String) : IO UInt32 := do
  match CommandLine.read arguments with
  | .error fault => Main.emit (Session.refuse fault)
  | .ok options =>
    match Session.load options (← Main.openFile options.file) with
    | .error response => Main.emit response
    | .ok loaded =>
      let stdin ←
        if Session.readsInput options then Main.readRest (← IO.getStdin) .empty else pure .empty
      let seed ← IO.rand 0 (UInt64.size - 1)
      Main.emit (Session.proceed WordStream.seededChooser options loaded stdin seed)
