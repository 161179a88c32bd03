import MatrixScript.Console

/-!
# The command line

The first argument is the script to run.  Without one the script comes from the standard input,
or from interactive lines if that is a terminal.
-/

namespace MatrixScript.Console

def readErrorOf : IO.Error → ReadError
  | .noFileOrDirectory .. => .notFound
  | .inappropriateType .. => .isDirectory
  | .invalidArgument _ 36 _ => .nameTooLong
  | error => .other (toString error)

def printMessage (m : Message) : IO Unit :=
  m.lines.forM fun line => IO.eprintln line

def printOutput (bytes : List UInt8) : IO Unit := do
  let stdout ← IO.getStdout
  stdout.write ⟨bytes.toArray⟩
  stdout.flush

def report (outcome : Outcome) : IO UInt32 := do
  printOutput outcome.output
  outcome.messages.forM printMessage
  return outcome.exitCode.toUInt32

def readFile (path : String) : IO (Except ReadError ByteArray) := do
  try
    return .ok (← IO.FS.readBinFile path)
  catch error =>
    return .error (readErrorOf error)

partial def interact (session : Session) : IO Unit := do
  IO.print "> "
  (← IO.getStdout).flush
  let line ← (← IO.getStdin).getLine
  if line.isEmpty then
    return
  let text := String.ofList (line.toList.filter (· != '\n'))
  let (answer, session) := runLine text session
  printOutput answer.output
  answer.messages.forM printMessage
  interact session

end MatrixScript.Console

open MatrixScript.Console in
def main (args : List String) : IO UInt32 := do
  match args with
  | path :: _ => report (runSource (.file path) (← readFile path))
  | [] =>
    let stdin ← IO.getStdin
    if ← stdin.isTty then
      interact {}
      return 0
    else
      report (runSource .standardInput (.ok (← stdin.readBinToEnd)))
