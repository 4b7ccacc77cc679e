import Sexp.Shell.Command

/-!
# The command line

The outermost layer: arguments, files and standard streams. Sessions answer each line before they
take the next one.
-/

namespace Sexp.Shell

def bytesOf (b : ByteArray) : List UInt8 := b.toList

/-- A directory can be opened, and only reading from it fails; then no file is named. -/
def FileError.ofIOError : IO.Error → FileError
  | .noFileOrDirectory .. => .notFound
  | .inappropriateType none .. => .isADirectory
  | .inappropriateType (some _) .. => .notADirectory
  | e => .other (toString e)

def readContents (path : String) : IO (Except FileError (List UInt8)) := do
  try
    return .ok (bytesOf (← IO.FS.readBinFile path))
  catch e =>
    return .error (.ofIOError e)

def write (t : Transcript) : IO UInt32 := do
  (← IO.getStdout).putStr t.output
  (← IO.getStderr).putStr t.diagnostics
  return UInt32.ofNat t.exit

def writeReport (r : Report) : IO Unit := do
  let output ← IO.getStdout
  output.putStr r.output
  output.flush
  (← IO.getStderr).putStr r.diagnostics

/-- The bytes of the next line with its line feed, none at the end of the input. `pending` holds
what has been read beyond the line before. -/
partial def nextLine (input : IO.FS.Stream) (pending : ByteArray) :
    IO (ByteArray × ByteArray) := do
  match pending.toList.findIdx? (· = 0x0A) with
  | some i => return (pending.extract 0 (i + 1), pending.extract (i + 1) pending.size)
  | none =>
    let more ← input.read 4096
    if more.isEmpty then return (pending, .empty)
    nextLine input (pending ++ more)

partial def interact (input : IO.FS.Stream) (pending : ByteArray) : IO Unit := do
  let (line, pending) ← nextLine input pending
  unless line.isEmpty do
    let reports := sessionReports (splitLines (bytesOf line))
    reports.forM writeReport
    unless reports.any (· matches .malformedInput) do
      interact input pending

end Sexp.Shell

open Sexp.Shell

def main (args : List String) : IO UInt32 := do
  match Command.ofArguments args with
  | .session =>
    (← IO.getStdout).putStr banner
    (← IO.getStdout).flush
    interact (← IO.getStdin) .empty
    return 0
  | .script path => write (.ofScript (runContents path (← readContents path)))
  | .help => write .help
  | .misuse => write .misuse
