import Lox.Console.Files
import Lox.Document.Encoding
import Lox.Session
import Lox.Syntax.Printer
import Lox.Text.Utf8

/-!
# Commands

* `FileCommand`: the commands that work on a file;
* `File.text`: the text of a file or what is said about it;
* `Transcript`: what a command writes and the code it ends with;
* `FileCommand.perform`: what a command does with a text, `FileCommand.performOn`: with a file.
-/

namespace Lox.Console

/-- The commands that work on a file. -/
inductive FileCommand where
  | tokenize
  | parse
  | evaluate
  | run
  | analyze
  deriving DecidableEq, Repr

/-- The word for a command. -/
def FileCommand.word : FileCommand → String
  | tokenize => "tokenize"
  | parse => "parse"
  | evaluate => "evaluate"
  | run => "run"
  | analyze => "analyze"

/-- All commands that work on a file. -/
def FileCommand.all : List FileCommand := [tokenize, parse, evaluate, run, analyze]

/-! ## Files -/

/-- What is said about a file that cannot be used. -/
def fileComplaint (what reason : String) : String :=
  "Error: " ++ what ++ "\n\nCaused by:\n    " ++ reason ++ "\n"

/-- The text of a file, or what is said about it. -/
def File.text (name : String) : File → Except String String
  | cannotOpen e => .error (fileComplaint ("Cannot open " ++ name) e.message)
  | cannotRead e => .error (fileComplaint ("Cannot read " ++ name) e.message)
  | contents bytes =>
    match Text.Utf8.decode bytes with
    | .ok text => .ok text
    | .error fault => .error (fileComplaint (name ++ " is not valid UTF-8") fault.message)

/-! ## What a command writes -/

/-- What a command writes and the code it ends with. -/
structure Transcript where
  out : String
  err : String
  code : UInt8
  deriving DecidableEq, Repr

/-- The code after a problem of the text. -/
def staticErrorCode : UInt8 := 65

/-- The code after a failure of the program. -/
def runtimeErrorCode : UInt8 := 70

/-- The code when the file cannot be used. -/
def fileErrorCode : UInt8 := 1

/-- Each line with its end. -/
def unlines (lines : List String) : String := String.join (lines.map (· ++ "\n"))

/-- Reports as they stand on a console. -/
def reportText (reports : List Report) : String := unlines (reports.map Report.line)

/-- The code that an outcome leads to. -/
def outcomeCode : Outcome → UInt8
  | .completed => 0
  | .staticError => staticErrorCode
  | .runtimeError | .outOfFuel => runtimeErrorCode

/-- Write every token, and apart from them every lexical problem. -/
def tokenize (source : String) : Transcript :=
  let items := scan source
  let problems := items.filterMap fun
    | .ok _ => none
    | .error p => some (p.value.error p.position).display
  { out := unlines ((items.filterMap Except.toOption).map Token.display)
    err := unlines problems
    code := if problems.isEmpty then 0 else staticErrorCode }

/-- Write the tree of an expression. -/
def parse (source : String) : Transcript :=
  let parsed := parseExpression source 0
  match parsed.tree, parsed.clean with
  | some e, true => ⟨unlines [e.text], "", 0⟩
  | _, _ => ⟨"", reportText parsed.reports, staticErrorCode⟩

/-- Write the value of an expression. -/
def evaluate (session : Session) (source : String) : Transcript :=
  let (submission, _) := session.evaluate source
  let err := reportText submission.reports
  match submission.result with
  | some v => ⟨submission.output ++ unlines [v.text], err, 0⟩
  | none =>
    let failed := (Tally.ofReports submission.reports).hadFailure
    ⟨submission.output, err, if failed then runtimeErrorCode else staticErrorCode⟩

/-- Run a program. -/
def run (session : Session) (source : String) : Transcript :=
  let (submission, _) := session.run source
  ⟨submission.output, reportText submission.reports, outcomeCode submission.result⟩

/-- Write what an editor knows of a document. Problems of the document are no failure. -/
def analyze (source : String) : Transcript := ⟨unlines [(Lox.analyze source).json.pretty], "", 0⟩

/-- What a command does with a text. -/
def FileCommand.perform (clock : Nat → Float) (source : String) : FileCommand → Transcript
  | tokenize => Console.tokenize source
  | parse => Console.parse source
  | evaluate => Console.evaluate (.start clock) source
  | run => Console.run (.start clock) source
  | analyze => Console.analyze source

/-- What a command does without a file. -/
def noFile : Transcript := ⟨"", unlines ["No input file given."], 0⟩

/-- What a command does with the file `name`. -/
def FileCommand.performOn (clock : Nat → Float) (name : String) (file : File)
    (command : FileCommand) : Transcript :=
  match file.text name with
  | .ok source => command.perform clock source
  | .error complaint => ⟨"", complaint, fileErrorCode⟩

end Lox.Console
