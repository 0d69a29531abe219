import Lox.Console.Command
import Lox.Text.Blank

/-!
# One line at a time

* `Repl.step`: what a line does in a session;
* `Repl.transcript`: what a whole input does, `lines`: the lines of an input.
-/

namespace Lox.Console

/-- What is written in front of every line that is read. -/
def prompt : String := "> "

/-- What a line adds to the two outputs. -/
structure Echo where
  out : String
  err : String

namespace Repl

/-- What a line does in a session. An expression has its value written, all else is run. -/
def step (session : Session) (line : String) : Echo × Session :=
  let line := Text.trimEnd line
  if line.isEmpty then (⟨"", ""⟩, session)
  else if isExpression line then
    let (submission, session) := session.evaluate line
    let shown := match submission.result with
      | some v => unlines [v.text]
      | none => ""
    (⟨submission.output ++ shown, reportText submission.reports⟩, session)
  else
    let (submission, session) := session.run line
    (⟨submission.output, reportText submission.reports⟩, session)

/-- What lines do in a session, one after the other. -/
def steps (session : Session) : List String → Echo
  | [] => ⟨prompt ++ "\n", ""⟩
  | line :: rest =>
    let (echo, session) := step session line
    let later := steps session rest
    ⟨prompt ++ echo.out ++ later.out, echo.err ++ later.err⟩

end Repl

/-- The lines of an input. A line end ends a line, so that none follows the last one. -/
def lines (input : String) : List String :=
  let parts := input.splitOn "\n"
  if parts.getLast? == some "" then parts.dropLast else parts

/-- What a whole input does. -/
def Repl.transcript (clock : Nat → Float) (input : String) : Transcript :=
  let echo := Repl.steps (.start clock) (lines input)
  ⟨echo.out, echo.err, 0⟩

end Lox.Console
