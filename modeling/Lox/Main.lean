import Lox.Console.Invocation
import Std.Time.DateTime.Timestamp

/-!
# The command line

* `main`: reads the command line and the file, and writes what the command yields.
-/

namespace Lox.Console

/-- The clock of a program that starts now. Every reading is a microsecond later than the one
before. -/
def readClock : IO (Nat → Float) := do
  let now ← Std.Time.Timestamp.now
  let seconds := Float.ofInt now.toMillisecondsSinceUnixEpoch.val / 1000
  return fun reading => seconds + Float.ofNat reading / 1000000

/-- Why a file cannot be used, as the system has it. -/
def SystemError.ofIO : IO.Error → SystemError
  | .noFileOrDirectory _ number wording
  | .inappropriateType _ number wording
  | .invalidArgument _ number wording
  | .permissionDenied _ number wording
  | .resourceExhausted _ number wording
  | .interrupted _ number wording
  | .alreadyExists _ number wording
  | .otherError number wording
  | .resourceBusy number wording
  | .resourceVanished number wording
  | .hardwareFault number wording
  | .unsatisfiedConstraints number wording
  | .illegalOperation number wording
  | .protocolError number wording
  | .timeExpired number wording
  | .noSuchThing _ number wording
  | .unsupportedOperation number wording => ⟨wording, number.toNat⟩
  | .unexpectedEof => ⟨"end of file", 0⟩
  | .userError wording => ⟨wording, 0⟩

/-- Look a file up. -/
def readFile (name : String) : IO File := do
  match ← (IO.FS.Handle.mk name .read).toBaseIO with
  | .error e => return .cannotOpen (.ofIO e)
  | .ok handle =>
    match ← handle.readBinToEnd.toBaseIO with
    | .error e => return .cannotRead (.ofIO e)
    | .ok bytes => return .contents bytes.toList

/-- Write a transcript. -/
def write (t : Transcript) : IO UInt32 := do
  IO.print t.out
  IO.eprint t.err
  return t.code.toUInt32

/-- Read and run one line after the other. -/
partial def converse (session : Session) : IO UInt32 := do
  IO.print prompt
  (← IO.getStdout).flush
  let line ← (← IO.getStdin).getLine
  if line.isEmpty then
    IO.println ""
    return 0
  else
    let (echo, session) := Repl.step session line
    IO.print echo.out
    IO.eprint echo.err
    converse session

/-- Do what a command line asks for. -/
def serve (invocation : Invocation) : IO UInt32 := do
  if invocation.log then IO.FS.writeFile "app.log" "Logging to app.log\n"
  let clock ← readClock
  match invocation.command with
  | .repl => converse (.start clock)
  | .onFile _ none => write noFile
  | .onFile command (some name) => write (command.performOn clock name (← readFile name))

end Lox.Console

/-- The program. -/
def main (args : List String) : IO UInt32 := do
  match Lox.Console.Invocation.ofArgs? args with
  | some invocation => Lox.Console.serve invocation
  | none =>
    IO.eprintln "usage: lox [--log] tokenize|parse|evaluate|run|analyze [FILE] | repl"
    return 2
