import PackedForest.CommandLine.Session

/-!
# The command line program

Reads the rule tables that its arguments name, then answers sentences, one a line, until the
input ends.
-/

namespace PackedForest

/-- The bytes of a file, or why it could not be opened. -/
def readFile (file : String) : IO (Except String (List UInt8)) := do
  try
    return .ok (← IO.FS.readBinFile file).toList
  catch
    | .noFileOrDirectory .. => return .error CommandLine.noSuchFile
    | error => return .error (toString error)

/-- Prompts for sentences and answers them. -/
partial def converse (session : CommandLine.Session) : IO UInt32 := do
  let output ← IO.getStdout
  output.putStr CommandLine.prompt
  output.flush
  let line ← (← IO.getStdin).getLine
  if line.isEmpty then return 0
  match session.answer line with
  | (.ok answer, session) =>
    output.putStr answer
    converse session
  | (.error fault, _) =>
    (← IO.getStderr).putStr (fault.message ++ "\n")
    return 101

/-- Runs the program on its arguments. -/
def runProgram (arguments : List String) : IO UInt32 := do
  let files ← (CommandLine.filesOf arguments).mapM fun file => return (file, ← readFile file)
  match CommandLine.start "packed-forest" arguments files with
  | .inl outcome =>
    (← IO.getStdout).putStr outcome.output
    (← IO.getStderr).putStr outcome.errors
    return .ofNat outcome.status
  | .inr session => converse session

end PackedForest

def main (arguments : List String) : IO UInt32 := PackedForest.runProgram arguments
