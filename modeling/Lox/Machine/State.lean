import Lox.Binding.Context
import Lox.Machine.Value

/-!
# The state of a running program

* `Refusal`: a printer does not take all of a text;
* `Machine`: all scopes and fields, the current scope, the known distances, the printed text, and the
  answers of the printer and the clock, which are not known before they are asked;
* `Interrupt`, `Eval`: an action on the machine, which may fail or run out of fuel;
* `Eval.within`: an action in another scope, after which the current scope is the one before;
* `Eval.read`, `Eval.assign`, `Eval.define`: reading and writing variables.
-/

namespace Lox

/-- What a printer says when it does not take all of a text. -/
structure Refusal where
  /-- How many characters of the text it took. -/
  taken : Nat
  message : String
  deriving DecidableEq, Repr

/-- The part of a text that a printer with this answer takes. -/
def Refusal.part (text : String) : Option Refusal → String
  | none => text
  | some refusal => String.ofList (text.toList.take refusal.taken)

/-- The state of a running program. -/
structure Machine where
  scopes : Scopes Value
  /-- The fields of every instance. -/
  fields : Array (Bindings Value)
  /-- The scope in which the program stands. -/
  current : ScopeId
  /-- The outermost scope. -/
  globals : ScopeId
  /-- How far the bindings of the resolved occurrences lie away. -/
  distances : Distances
  /-- The number of the next object. -/
  nextObject : ObjectId
  /-- What was printed: of each line the part that the printer took. -/
  printed : Array String
  /-- The answers of the printer, one for each line that it is handed. -/
  printer : Nat → Option Refusal
  /-- How many lines it was handed. -/
  writes : Nat
  /-- The answers of the clock, one for each time it is read. -/
  clock : Nat → Float
  /-- How often the clock was read. -/
  readings : Nat

namespace Machine

/-- A machine whose globals are the functions that the language brings along. -/
def start (clock : Nat → Float) : Machine :=
  let (globals, scopes) := Scopes.empty.push none
  { scopes := Native.all.foldl (fun s f => s.define globals f.name (.native f)) scopes
    fields := #[]
    current := globals
    globals := globals
    distances := ∅
    nextObject := 0
    printed := #[]
    printer := fun _ => none
    writes := 0
    clock := clock
    readings := 0 }

/-- Learn the distances of further occurrences. -/
def addDistances (m : Machine) (distances : Distances) : Machine :=
  { m with distances := m.distances ∪ distances }

/-- What a name is bound to in the globals. -/
def global? (m : Machine) (name : String) : Option Value := m.scopes.getAt m.globals 0 name

/-- The printed text. -/
def output (m : Machine) : String := String.join m.printed.toList

/-- Forget what was printed. -/
def clearOutput (m : Machine) : Machine := { m with printed := #[] }

/-- The printer was handed a text. -/
def wrote (m : Machine) (text : String) : Machine :=
  { m with
    printed := m.printed.push (Refusal.part text (m.printer m.writes))
    writes := m.writes + 1 }

/-- The scope that holds the binding of an occurrence: at its distance if that is known, else
among the globals. -/
def holder? (m : Machine) (use : Occurrence) : Option ScopeId :=
  match m.distances[use.id]? with
  | some distance => m.scopes.holderAt? m.current distance use.name.lexeme
  | none => m.scopes.holder? m.globals use.name.lexeme

/-- What is wrong when an occurrence has no binding. -/
def missing (m : Machine) (use : Occurrence) : RuntimeProblem :=
  match m.distances[use.id]? with
  | some _ => .lostBinding use.name.lexeme
  | none => .undefinedVariable use.name.lexeme

end Machine

/-- Why an action stopped. -/
inductive Interrupt where
  | failure (f : Failure)
  /-- The bound on the depth of the evaluation was reached. -/
  | outOfFuel

/-- An action on the machine. What it did before it failed stays done. -/
abbrev Eval := EStateM Interrupt Machine

namespace Eval

/-- Fail at a token. -/
def fail {α : Type} (problem : RuntimeProblem) (place : Token) : Eval α :=
  throw (.failure (.problem problem place.position))

/-- Stop because the depth is too great. -/
def outOfFuel {α : Type} : Eval α := throw .outOfFuel

/-- Go on with a value, or fail at a token. -/
def ofExcept {α : Type} (place : Token) : Except RuntimeProblem α → Eval α
  | .ok a => pure a
  | .error problem => fail problem place

/-- Run an action in another scope; however it ends, the current scope is the one before. -/
def within {α : Type} (scope : ScopeId) (action : Eval α) : Eval α := fun m =>
  let outside := m.current
  match action { m with current := scope } with
  | .ok a m => .ok a { m with current := outside }
  | .error e m => .error e { m with current := outside }

/-- Open a scope inside another one. -/
def openScope (parent : ScopeId) : Eval ScopeId :=
  modifyGet fun m =>
    let (scope, scopes) := m.scopes.push (some parent)
    (scope, { m with scopes := scopes })

/-- Bind a name in a scope. -/
def define (scope : ScopeId) (name : String) (value : Value) : Eval Unit :=
  modify fun m => { m with scopes := m.scopes.define scope name value }

/-- Bind a name in the current scope. -/
def defineHere (name : String) (value : Value) : Eval Unit := do define (← get).current name value

/-- The scope that holds the binding of an occurrence. -/
def locate (use : Occurrence) : Eval ScopeId := do
  let m ← get
  match m.holder? use with
  | some holder => return holder
  | none => fail (m.missing use) use.name

/-- Read the binding of an occurrence. -/
def read (use : Occurrence) : Eval Value := do
  let holder ← locate use
  let m ← get
  match m.scopes.own? holder use.name.lexeme with
  | some value => return value
  | none => fail (m.missing use) use.name

/-- Write the binding of an occurrence. -/
def assign (target : Occurrence) (value : Value) : Eval Unit := do
  let holder ← locate target
  define holder target.name.lexeme value

/-- Number a new object. -/
def freshObject : Eval ObjectId :=
  modifyGet fun m => (m.nextObject, { m with nextObject := m.nextObject + 1 })

/-- Make an instance without fields. -/
def freshInstance (c : ClassObject) : Eval Value :=
  modifyGet fun m => (.instance m.fields.size c, { m with fields := m.fields.push .empty })

/-- Write a field. -/
def setField (id : InstanceId) (name : String) (value : Value) : Eval Unit :=
  modify fun m => { m with fields := m.fields.modify id (·.insert name value) }

/-- Hand a text to the printer and hear its answer. -/
def write (text : String) : Eval (Option Refusal) :=
  modifyGet fun m => (m.printer m.writes, m.wrote text)

/-- Print a line. The program fails if the printer does not take it. -/
def print (line : String) : Eval Unit := do
  match ← write (line ++ "\n") with
  | none => return
  | some refusal => throw (.failure (.output refusal.message))

/-- Read the clock. -/
def readClock : Eval Value :=
  modifyGet fun m => (.number (m.clock m.readings), { m with readings := m.readings + 1 })

end Eval

end Lox
