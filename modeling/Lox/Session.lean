import Lox.Binding.Resolve
import Lox.Machine.Evaluate
import Lox.Syntax.Program

/-!
# Sessions

A session keeps the variables of one submission for the next one. A submission with a problem in
its text runs nothing.

* `Outcome`: how far a submission came, `Submission`: what is told of it;
* `Session.run`: submit a program, `Session.evaluate`: submit an expression;
* `Session.global?`, `Session.setPrinter`: looking at a global and changing the printer.
-/

namespace Lox

/-- How far a submission came. -/
inductive Outcome where
  | completed
  /-- The text has a problem and nothing ran. -/
  | staticError
  /-- The program failed. -/
  | runtimeError
  /-- The bound on the depth of the evaluation was reached. -/
  | outOfFuel
  deriving DecidableEq, Repr

/-- What is told of a submission. -/
structure Submission (α : Type) where
  result : α
  /-- Everything that is delivered to the host, in order. -/
  reports : List Report
  /-- The printed text. -/
  output : String

/-- The variables, objects and numbers that one submission leaves to the next. -/
structure Session where
  machine : Machine
  /-- The number of the next occurrence; no two occurrences of a session share one. -/
  nextId : ExprId

namespace Session

/-- A session in which nothing was submitted. -/
def start (clock : Nat → Float) : Session := ⟨.start clock, 0⟩

/-- The depth that an evaluation may reach. It is greater than any that fits into memory. -/
def maxDepth : Nat := Nat.pow 2 60

/-- Run statements one after the other. The first that does not succeed ends the program. -/
def executeAll (fuel : Nat) : List Stmt → Eval Unit
  | [] => pure ()
  | s :: rest => do
    let _ ← Eval.execute fuel s
    executeAll fuel rest

/-- Run an action that follows a text without a problem. -/
def perform {α β : Type} (s : Session) (warnings : List Report) (action : Eval α)
    (onValue : α → β) (onFailure onFuel : β) : Submission β × Session :=
  match action s.machine with
  | .ok a m => (⟨onValue a, warnings, m.output⟩, { s with machine := m.clearOutput })
  | .error (.failure f) m =>
    (⟨onFailure, warnings ++ [f.report], m.output⟩, { s with machine := m.clearOutput })
  | .error .outOfFuel m => (⟨onFuel, warnings, m.output⟩, { s with machine := m.clearOutput })

/-- Learn the distances of a program. -/
def learn (s : Session) (r : Resolution) : Session :=
  { s with machine := s.machine.addDistances r.distances }

/-- Submit a program. -/
def run (s : Session) (source : String) (fuel : Nat := maxDepth) : Submission Outcome × Session :=
  let parsed := parse source s.nextId
  let s := { s with nextId := parsed.nextId }
  if !parsed.clean then (⟨.staticError, parsed.reports, ""⟩, s)
  else
    let resolution := resolve parsed.tree
    if resolution.hasError then (⟨.staticError, resolution.reports, ""⟩, s)
    else
      (s.learn resolution).perform resolution.reports (executeAll fuel parsed.tree)
        (fun _ => .completed) .runtimeError .outOfFuel

/-- Submit an expression, which yields its value unless something is wrong. -/
def evaluate (s : Session) (source : String) (fuel : Nat := maxDepth) :
    Submission (Option Value) × Session :=
  let parsed := parseExpression source s.nextId
  let s := { s with nextId := parsed.nextId }
  match parsed.tree, parsed.clean with
  | some e, true =>
    let resolution := resolve [.expression e]
    if resolution.hasError then (⟨none, resolution.reports, ""⟩, s)
    else
      (s.learn resolution).perform resolution.reports (Eval.evaluate fuel e) some none none
  | _, _ => (⟨none, parsed.reports, ""⟩, s)

/-- The value of a global. -/
def global? (s : Session) (name : String) : Option Value := s.machine.global? name

/-- From now on the printer answers like this. -/
def setPrinter (s : Session) (answers : Nat → Option Refusal) : Session :=
  { s with machine := { s.machine with printer := answers } }

/-- From now on every line is refused with the given message, or every line is printed. -/
def setSink (s : Session) (failure : Option String) : Session :=
  s.setPrinter fun _ => failure.map (⟨0, ·⟩)

end Session

end Lox
