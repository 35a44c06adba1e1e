import Lox.Clock
import Lox.CommandLine
import Std.Time.DateTime.Timestamp

/-!
# The program

Reads files and standard input and writes what the command answers.
-/

namespace Lox.CommandLine

/-- A bound on the depth of recursion that no run reaches. -/
def unbounded : Nat := Decimal.twoTo 62

def rulesNow : IO Rules := do
  let now ← Std.Time.Timestamp.now
  return { clock := Clock.advancing (now.toNanosecondsSinceUnixEpoch.val.toNat / 1000) }

/-- The fault behind an error of the system, which names the file if it could not be opened,
and not if it was opened and cannot be read. -/
def faultOf : IO.Error → FileFault
  | .permissionDenied .. => .denied
  | .inappropriateType (some _) .. => .notADirectory
  | .inappropriateType none .. => .isDirectory
  | .invalidArgument .. => .nameTooLong
  | _ => .missing

def readBytes (name : String) : IO (Except FileFault (List UInt8)) := do
  try
    return .ok (← IO.FS.readBinFile name).toList
  catch error => return .error (faultOf error)

def conclude (report : Report) : IO UInt32 := do
  IO.eprint report.stderr
  IO.print report.stdout
  return report.exitCode.toUInt32

/-- The bytes of a line, with the line break that ends it. -/
partial def readLineBytes (stdin : IO.FS.Stream) (before : ByteArray) : IO ByteArray := do
  let byte ← stdin.read 1
  if byte.isEmpty then return before
  else if byte.toList = [10] then return before ++ byte
  else readLineBytes stdin (before ++ byte)

/-- Answers typed lines until one of them ends the session. -/
partial def converseNow (stdin : IO.FS.Stream) (session : Session) : IO UInt32 := do
  IO.print prompt
  (← IO.getStdout).flush
  let line ← readLineBytes stdin .empty
  let (answer, session) := reply (← rulesNow) unbounded session line.toList
  IO.eprint answer.stderr
  IO.print answer.stdout
  match answer.exit? with
  | some code => return code.toUInt32
  | none => converseNow stdin session

def executeNow (command : Command) : IO UInt32 := do
  match command with
  | .run none => converseNow (← IO.getStdin) (Session.initial .unlimited)
  | .run (some file) | .tokenize file _ | .parse file =>
    let content ← readBytes file
    conclude (execute (← rulesNow) unbounded (fun _ => content) [] command)

def serve (arguments : List String) : IO UInt32 := do
  match Request.ofArguments arguments with
  | .command command log =>
    if log then IO.FS.writeFile "app.log" ""
    executeNow command
  | .version | .help | .misuse =>
    conclude (answer (← rulesNow) unbounded (fun _ => .error .missing) [] arguments)

end Lox.CommandLine

def main (arguments : List String) : IO UInt32 := Lox.CommandLine.serve arguments
