import Lox.Console.Repl

/-!
# Command lines

* `Command`: what a command line can ask for;
* `Invocation`: a command line, `Invocation.ofArgs?`: reading one;
* `Invocation.perform`: what is written when a command line is carried out.
-/

namespace Lox.Console

/-- What a command line asks for. -/
inductive Command where
  | onFile (command : FileCommand) (file : Option String)
  /-- Read and run one line after the other. -/
  | repl
  deriving DecidableEq, Repr

/-- A command line. -/
structure Invocation where
  command : Command
  /-- Keep a log. -/
  log : Bool
  deriving DecidableEq, Repr

namespace Invocation

/-! ## Reading -/

/-- The option that asks for a log. It may stand in front of the command or behind it. -/
def logOption : String := "--log"

/-- The word behind which no options stand. -/
def endOfOptions : String := "--"

/-- A word is an option if it begins with a dash; the dash alone is none. -/
def isOption (word : String) : Bool := word.startsWith "-" && word != "-"

/-- Read the word of a command and what it works on, which has a name. -/
def command? (word : String) (operands : List String) : Option Command :=
  match FileCommand.all.find? (·.word == word), operands with
  | some c, [] => some (.onFile c none)
  | some c, [file] => if file.isEmpty then none else some (.onFile c (some file))
  | none, [] => if word == "repl" then some .repl else none
  | _, _ => none

/-- Read a command line. -/
def ofArgs? (args : List String) : Option Invocation :=
  let front := args.takeWhile (· != endOfOptions)
  let behind := (args.dropWhile (· != endOfOptions)).drop 1
  match front.filter (· != logOption) with
  | [] => none
  | word :: operands =>
    if operands.any isOption then none
    else (command? word (operands ++ behind)).map fun c => ⟨c, front.contains logOption⟩

/-! ## Carrying out -/

/-- What is written when a command line is carried out among files, with an input for the lines
that are read. -/
def perform (clock : Nat → Float) (file : String → File) (input : String)
    (invocation : Invocation) : Transcript :=
  match invocation.command with
  | .repl => Repl.transcript clock input
  | .onFile _ none => noFile
  | .onFile command (some name) => command.performOn clock name (file name)

end Invocation

end Lox.Console
