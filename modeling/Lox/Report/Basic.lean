import Lox.Report.Problem
import Lox.Text.Utf8

/-!
# Errors and reports

* `Error`: every failure a host can be told of, with its bare message and its displayed form;
* `Report`: one delivery to the host, `Report.line`: the form in which it stands on a console;
* `Diagnostic`: a delivery as an editor records it;
* `Tally`: how many deliveries of each kind were made.
-/

namespace Lox

/-- The stages whose failures point into the source text. -/
inductive Stage where
  | lexing
  | parsing
  | resolving
  | running
  deriving DecidableEq, Repr

/-- A failure as a host sees it. -/
inductive Error where
  | located (stage : Stage) (message : String) (position : Position)
  /-- Printed text could not be delivered. -/
  | output (message : String)
  | encoding (fault : Text.Utf8.Fault)

namespace Error

/-- The bare message. -/
def message : Error → String
  | located _ message _ => message
  | output message => message
  | encoding fault => fault.message

/-- The position in the source text, for a failure that has one. -/
def position? : Error → Option Position
  | located _ _ position => some position
  | output _ => none
  | encoding _ => none

/-- The position of the failure; one that comes from no source text stands at `Position.none`. -/
def position (e : Error) : Position := e.position?.getD Position.none

/-- The displayed form: a failure of the running program names its line below its message, a
failure of another stage names it in front. -/
def display : Error → String
  | located .running message position => message ++ "\n[line " ++ toString position.line ++ "]"
  | located _ message position => "[line " ++ toString position.line ++ "] Error: " ++ message
  | output message => message
  | encoding fault => fault.message

end Error

/-- One delivery to the host. -/
inductive Report where
  | error (position : Position) (message : String)
  | warning (position : Position) (message : String)
  /-- The running program failed. -/
  | failure (error : Error)

/-- A delivery as an editor records it. -/
structure Diagnostic where
  severity : Severity
  position : Position
  message : String
  deriving DecidableEq, Repr

namespace Diagnostic

/-- The diagnostic is an error. -/
def isError (d : Diagnostic) : Bool := d.severity == .error

end Diagnostic

namespace Report

/-- The form in which a delivery stands on a console. -/
def line : Report → String
  | error position message => "[line " ++ toString position.line ++ "] Error: " ++ message
  | warning position message => "[line " ++ toString position.line ++ "] Warning: " ++ message
  | failure e => e.display

/-- The diagnostic of a delivery. A failure of the running program counts as an error. -/
def diagnostic : Report → Diagnostic
  | error position message => ⟨.error, position, message⟩
  | warning position message => ⟨.warning, position, message⟩
  | failure e => ⟨.error, e.position, e.message⟩

/-- The delivery of an error that was built before. -/
def ofError (e : Error) : Report := .error e.position e.message

/-- The delivery is an error of the source text. -/
def isStaticError : Report → Bool
  | error _ _ => true
  | _ => false

/-- The delivery is a warning. -/
def isWarning : Report → Bool
  | warning _ _ => true
  | _ => false

/-- The delivery is a failure of the running program. -/
def isFailure : Report → Bool
  | failure _ => true
  | _ => false

end Report

namespace Complaint

/-- The delivery of a complaint. -/
def report (c : Complaint) : Report :=
  match c.value.severity with
  | .error => .error c.position c.value.message
  | .warning => .warning c.position c.value.message

/-- The complaint is an error. -/
def isError (c : Complaint) : Bool := c.value.severity == .error

theorem isStaticError_report (c : Complaint) : c.report.isStaticError = isError c := by
  unfold report isError
  cases c.value.severity <;> rfl

theorem isFailure_report (c : Complaint) : c.report.isFailure = false := by
  unfold report
  cases c.value.severity <;> rfl

end Complaint

/-- The failure that a lexical problem is. -/
def LexicalProblem.error (p : LexicalProblem) (position : Position) : Error :=
  .located .lexing p.message position

/-! ## Counting deliveries -/

/-- How many deliveries of each kind were made. -/
structure Tally where
  errors : Nat := 0
  warnings : Nat := 0
  failures : Nat := 0
  deriving DecidableEq, Repr

namespace Tally

/-- Count one delivery more. -/
def add (t : Tally) : Report → Tally
  | .error _ _ => { t with errors := t.errors + 1 }
  | .warning _ _ => { t with warnings := t.warnings + 1 }
  | .failure _ => { t with failures := t.failures + 1 }

/-- Count a list of deliveries. -/
def ofReports (reports : List Report) : Tally := reports.foldl add {}

/-- The source text had an error. -/
def hadError (t : Tally) : Bool := t.errors > 0

/-- The running program failed. -/
def hadFailure (t : Tally) : Bool := t.failures > 0

theorem foldl_add (reports : List Report) (t : Tally) :
    reports.foldl add t =
      ⟨t.errors + reports.countP Report.isStaticError, t.warnings + reports.countP Report.isWarning,
        t.failures + reports.countP Report.isFailure⟩ := by
  induction reports generalizing t with
  | nil => rfl
  | cons r rest ih =>
    rw [List.foldl_cons, ih]
    cases r <;>
      simp [add, Report.isStaticError, Report.isWarning, Report.isFailure, List.countP_cons,
        Nat.add_right_comm, Nat.add_assoc]

theorem hadError_ofReports (reports : List Report) :
    (ofReports reports).hadError = reports.any Report.isStaticError := by
  rw [Bool.eq_iff_iff, List.any_eq_true, ofReports, foldl_add]
  simp [hadError]

theorem hadFailure_ofReports (reports : List Report) :
    (ofReports reports).hadFailure = reports.any Report.isFailure := by
  rw [Bool.eq_iff_iff, List.any_eq_true, ofReports, foldl_add]
  simp [hadFailure]

end Tally

end Lox
