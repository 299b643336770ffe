/-
  The program.

  It reads the files that its arguments name, runs the command line on them,
  and writes the output and the error message.
-/
import Straightline.CommandLine.Run

namespace Straightline.CommandLine

/-- Read one file. An error of opening it names the file, one of reading what was
    opened does not. -/
def readSource (name : Text) : IO (Except FileProblem Text) := do
  let some path := String.fromUTF8? ⟨name.toArray⟩
    | return .error (.missing name)
  try
    let data ← IO.FS.readBinFile path
    return .ok data.data.toList
  catch
    | .noFileOrDirectory .. => return .error (.missing name)
    | .inappropriateType (some _) .. => return .error (.notDirectory name)
    | .inappropriateType none .. => return .error (.isDirectory name)
    | .invalidArgument .. =>
      return .error (if name.contains 0 then .invalidName name else .nameTooLong name)
    | .permissionDenied .. => return .error (.unreadable name (utf8 "permission denied"))
    | e => return .error (.unreadable name (utf8 (toString e)))

/-- Read some files. -/
def readSources (names : List Text) : IO FileSystem := do
  let contents ← names.mapM fun name => return (name, ← readSource name)
  return fun name => (contents.lookup name).getD (.error (.missing name))

/-- Write bytes to a stream. -/
def writeText (stream : IO.FS.Stream) (t : Text) : IO Unit := do
  stream.write ⟨t.toArray⟩
  stream.flush

end Straightline.CommandLine

open Straightline CommandLine

/-- Run the program on its arguments. -/
def main (args : List String) : IO UInt32 := do
  let reading := readAll (args.map utf8)
  let report := reading.report (← readSources reading.files)
  writeText (← IO.getStdout) report.output
  if let some message := report.error then
    writeText (← IO.getStderr) (utf8 "error: " ++ message ++ [newline])
  return report.exitCode
