import Lox.Machine.Operators
import Lox.Machine.State

/-!
# Evaluation

Each rule takes the actions for the parts of its node; `evaluate`, `execute` and `call` tie the
rules together, with a bound on the depth of the evaluation.

* `Completion`: how a statement ended;
* `runAll`, `loop`: rows of statements and loops;
* `bind`, `invoke`, `superMethod`, `declareClass`: methods, calls and classes;
* `evaluate`, `execute`, `call`: an expression, a statement and a call.
-/

namespace Lox

/-- How a statement ended. -/
inductive Completion where
  | normal
  | «return» (value : Value)
  | «break»
  | «continue»

namespace Eval

/-! ## Rows of statements and loops -/

/-- Run statements up to the first one that does not end normally. -/
def runAll (run : Stmt → Eval Completion) : List Stmt → Eval Completion
  | [] => pure .normal
  | s :: rest => do
    match ← run s with
    | .normal => runAll run rest
    | ended => return ended

/-- Run `body` and then `step` as long as `condition` holds. A `break` of the body ends the loop
normally, a `continue` goes on with `step`, a `return` is passed on. -/
def loop (condition : Eval Bool) (body : Eval Completion) (step : Eval Unit) : Nat → Eval Completion
  | 0 => outOfFuel
  | fuel + 1 => do
    if ← condition then
      match ← body with
      | .break => return .normal
      | .return value => return .return value
      | _ =>
        step
        loop condition body step fuel
    else return .normal

/-! ## Functions and methods -/

/-- A method whose scope binds `this` to an instance. -/
def bind (method : Closure) (this : Value) : Eval Closure := do
  let scope ← openScope method.scope
  define scope Keyword.this.spelling this
  return { method with scope := scope }

/-- A method bound to an instance, as a function of its own. -/
def bindValue (method : Closure) (this : Value) : Eval Value := do
  let bound ← bind method this
  return .function (← freshObject) bound

/-- Bind parameters to arguments in a scope. -/
def defineAll (scope : ScopeId) : List Token → List Value → Eval Unit
  | param :: params, argument :: arguments => do
    define scope param.lexeme argument
    defineAll scope params arguments
  | _, _ => pure ()

/-- What `this` is bound to in the scope of a method. -/
def boundThis (c : Closure) : Eval Value := do
  return ((← get).scopes.getAt c.scope 0 Keyword.this.spelling).getD .nil

/-- Run the body of a function on its arguments, in a scope of its own. An initializer yields its
instance, another function what its body returns. -/
def invoke (run : Stmt → Eval Completion) (c : Closure) (arguments : List Value) : Eval Value := do
  let scope ← openScope c.scope
  defineAll scope c.declaration.params arguments
  let ended ← within scope (runAll run c.declaration.body)
  if c.isInitializer then boundThis c
  else
    match ended with
    | .return value => return value
    | _ => return .nil

/-- Fail unless a call has as many arguments as it needs. -/
def checkArity (needed : Nat) (arguments : List Value) (paren : Token) : Eval Unit :=
  if arguments.length == needed then pure () else fail (.wrongArgumentCount needed arguments.length) paren

/-- Call a value. A class makes an instance and sets it up. -/
@[inline] def callRule (run : Stmt → Eval Completion) (callee : Value) (arguments : List Value)
    (paren : Token) : Eval Value := do
  match callee with
  | .function _ closure =>
    checkArity closure.arity arguments paren
    invoke run closure arguments
  | .native f =>
    checkArity f.arity arguments paren
    match f with
    | .clock => readClock
  | .class c =>
    checkArity c.arity arguments paren
    let this ← freshInstance c
    match c.initializer? with
    | some initializer =>
      let _ ← invoke run (← bind initializer this) arguments
    | none => pure ()
    return this
  | _ => fail .notCallable paren

/-! ## Properties -/

/-- Read a property: a field, or else a method bound to the instance. -/
def getProperty (object : Value) (name : Token) : Eval Value := do
  match object with
  | .instance id c =>
    match (← get).fields[id]?.bind (·.get? name.lexeme) with
    | some value => return value
    | none =>
      match c.method? name.lexeme with
      | some method => bindValue method object
      | none => fail (.undefinedProperty name.lexeme) name
  | _ => fail .noProperties name

/-- The number of the instance whose field is written. -/
def instanceOf (object : Value) (name : Token) : Eval InstanceId :=
  match object with
  | .instance id _ => pure id
  | _ => fail .noFields name

/-- The method that `super` leads to: of the superclass that the scope of `super` holds, bound to
the instance that the scope inside it holds. -/
def superMethod (keyword : Occurrence) (method : Token) : Eval Value := do
  let m ← get
  let lost {α : Type} (word : Keyword) : Eval α := fail (.lostBinding word.spelling) keyword.name
  match m.distances[keyword.id]? with
  | none => fail (.lostBinding keyword.name.lexeme) keyword.name
  | some distance =>
    match m.scopes.getAt m.current distance Keyword.super.spelling with
    | some (.class superclass) =>
      match distance with
      | 0 => lost .this
      | inner + 1 =>
        match m.scopes.getAt m.current inner Keyword.this.spelling with
        | none => lost .this
        | some this =>
          match superclass.method? method.lexeme with
          | some found => bindValue found this
          | none => fail (.undefinedProperty method.lexeme) method
    | _ => fail (.lostBinding keyword.name.lexeme) keyword.name

/-! ## Declarations -/

/-- The superclass of a class, which must be a class. -/
def superclassValue (superclass : Option Occurrence) : Eval (Option ClassObject) := do
  match superclass with
  | none => return none
  | some use =>
    match ← read use with
    | .class c => return some c
    | _ => fail .superclassNotClass use.name

/-- The scope in which the methods of a class are declared: with a superclass one of its own,
which binds `super`. -/
def methodScope (superclass : Option ClassObject) : Eval ScopeId := do
  let current := (← get).current
  match superclass with
  | none => return current
  | some parent =>
    let scope ← openScope current
    define scope Keyword.super.spelling (.class parent)
    return scope

/-- The methods of a class; of two with one name the later one counts. -/
def methodTable (scope : ScopeId) (methods : List Function) : Bindings Closure :=
  methods.foldl (fun table f => table.insert f.name.lexeme ⟨f, scope, f.isInitializer⟩) .empty

/-- Declare a class. -/
def declareClass (c : Class) : Eval Unit := do
  let superclass ← superclassValue c.superclass
  let scope ← methodScope superclass
  let id ← freshObject
  defineHere c.name.lexeme (.class ⟨id, c.name.lexeme, superclass, methodTable scope c.methods⟩)

/-- Declare a function. -/
def declareFunction (f : Function) : Eval Unit := do
  let scope := (← get).current
  let id ← freshObject
  defineHere f.name.lexeme (.function id ⟨f, scope, false⟩)

/-! ## Expressions and statements -/

/-- The value of an expression that may be missing. -/
def optional (eval : Expr → Eval Value) : Option Expr → Eval Value
  | none => pure .nil
  | some e => eval e

/-- A condition that may be missing holds when it is. -/
def conditionOf (eval : Expr → Eval Value) : Option Expr → Eval Bool
  | none => pure true
  | some e => Value.truthy <$> eval e

/-- The value of an expression whose parts are evaluated by `eval` and whose calls are made by
`call`. Operands are evaluated from left to right. -/
@[inline] def evaluateRule (eval : Expr → Eval Value) (call : Value → List Value → Token → Eval Value) :
    Expr → Eval Value
  | .literal constant => pure constant.value
  | .grouping inner => eval inner
  | .unary op operator operand => do
    let v ← eval operand
    ofExcept operator (op.apply v)
  | .binary left op operator right => do
    let a ← eval left
    let b ← eval right
    ofExcept operator (op.apply a b)
  | .logical left op _ right => do
    let a ← eval left
    if op.decidedBy a then return a else eval right
  | .variable use => read use
  | .assign target e => do
    let v ← eval e
    assign target v
    return v
  | .call calleeExpr argumentExprs paren => do
    let callee ← eval calleeExpr
    let arguments ← argumentExprs.mapM eval
    call callee arguments paren
  | .get objectExpr name => do
    let object ← eval objectExpr
    getProperty object name
  | .set objectExpr name e => do
    let object ← eval objectExpr
    let id ← instanceOf object name
    let v ← eval e
    setField id name.lexeme v
    return v
  | .this keyword => read keyword
  | .super keyword method => superMethod keyword method

/-- Run a statement whose expressions are evaluated by `eval` and whose parts are run by `run`. -/
@[inline] def executeRule (eval : Expr → Eval Value) (run : Stmt → Eval Completion) (fuel : Nat) :
    Stmt → Eval Completion
  | .expression e => do
    let _ ← eval e
    return .normal
  | .print e => do
    let v ← eval e
    print v.text
    return .normal
  | .var name initializer => do
    let v ← optional eval initializer
    defineHere name.lexeme v
    return .normal
  | .block body => do
    let scope ← openScope (← get).current
    within scope (runAll run body)
  | .ifElse condition thenBranch elseBranch => do
    if (← eval condition).truthy then run thenBranch
    else
      match elseBranch with
      | some s => run s
      | none => return .normal
  | .whileLoop condition body => loop (Value.truthy <$> eval condition) (run body) (pure ()) fuel
  | .forLoop initializer condition increment body => do
    let scope ← openScope (← get).current
    within scope do
      match initializer with
      | some s =>
        let _ ← run s
      | none => pure ()
      loop (conditionOf eval condition) (run body) (do let _ ← optional eval increment) fuel
  | .function declaration => do
    declareFunction declaration
    return .normal
  | .class declaration => do
    declareClass declaration
    return .normal
  | .return _ value => do
    let v ← optional eval value
    return .return v
  | .break _ => return .break
  | .continue _ => return .continue

mutual

/-- The value of an expression, evaluated at most `fuel` levels deep. -/
def evaluate : Nat → Expr → Eval Value
  | 0, _ => outOfFuel
  | fuel + 1, e => evaluateRule (evaluate fuel) (call fuel) e

/-- Run a statement, at most `fuel` levels deep. -/
def execute : Nat → Stmt → Eval Completion
  | 0, _ => outOfFuel
  | fuel + 1, s => executeRule (evaluate fuel) (execute fuel) fuel s

/-- Call a value, at most `fuel` levels deep. -/
def call : Nat → Value → List Value → Token → Eval Value
  | 0, _, _, _ => outOfFuel
  | fuel + 1, callee, arguments, paren => callRule (execute fuel) callee arguments paren

end

end Eval

end Lox
