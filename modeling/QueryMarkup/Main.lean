import QueryMarkup.Command.Run

/-!
The program: a command line on the files and streams of a system.
-/
namespace QueryMarkup.Program

open Command

/-- What an error of the system means for reading. A path that leads through a file is refused
when it is opened, with its name; a directory is refused when it is read. -/
def causeOf (error : IO.Error) : ReadError :=
  match error with
  | .noFileOrDirectory .. => .notFound
  | .permissionDenied .. => .denied
  | .inappropriateType (some _) _ _ => .notDirectory
  | .inappropriateType none _ _ => .isDirectory
  | .invalidArgument (some _) _ _ => .nameTooLong
  | error => .other (toString error)

/-- Bytes as text, if they are text. -/
def textOf (bytes : ByteArray) : Except ReadError String :=
  if h : bytes.IsValidUTF8 then .ok (String.fromUTF8 bytes h) else .error .notText

def readFile (path : String) : IO (Except ReadError String) := do
  try return textOf (← IO.FS.readBinFile path)
  catch error => return .error (causeOf error)

def readInput : IO (Except ReadError String) := do
  try return textOf (← (← IO.getStdin).readBinToEnd)
  catch error => return .error (causeOf error)

def host (terminal : Bool) : Host IO := ⟨readFile, readInput, terminal⟩

end QueryMarkup.Program

def main (arguments : List String) : IO UInt32 := do
  let errors ← IO.getStderr
  let outcome ← QueryMarkup.Command.run (QueryMarkup.Program.host (← errors.isTty)) arguments
  errors.putStr outcome.messages
  (← IO.getStdout).putStr outcome.output
  return outcome.code.toUInt32
