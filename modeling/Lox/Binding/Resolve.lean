import Lox.Binding.Context
import Lox.Report.Basic

/-!
# Finding the binding of every name

One walk over a program finds, for every place that reads or writes a name, how many scopes lie
between it and the scope of its binding; it links uses to declarations and notes which static
rules are broken. The walk never stops at a problem.

* `Expr.resolve`, `Stmt.resolve`, `Function.resolve`: what is known behind a part of a program;
* `Resolution`, `resolve`: what the walk over a whole program finds.
-/

namespace Lox

/-! ## Expressions -/

mutual

/-- What is known behind an expression. -/
def Expr.resolve (c : Context) : Expr → Context
  | .literal _ => c
  | .grouping inner => inner.resolve c
  | .unary _ _ operand => operand.resolve c
  | .binary left _ _ right => right.resolve (left.resolve c)
  | .logical left _ _ right => right.resolve (left.resolve c)
  | .variable use =>
    (c.check (c.innermost? use.name.lexeme == some .uninitialized) .readInInitializer use.name).use use
  | .assign target value => (value.resolve c).use target
  | .call callee arguments _ => Expr.resolveAll (callee.resolve c) arguments
  | .get object _ => object.resolve c
  | .set object _ value => value.resolve (object.resolve c)
  | .this keyword =>
    match c.classKind with
    | .none => c.complain .thisOutsideClass keyword.name
    | _ => c.use keyword
  | .super keyword _ =>
    match c.classKind with
    | .none => c.complain .superOutsideClass keyword.name
    | .plain => c.complain .superWithoutSuperclass keyword.name
    | .subclass => c.use keyword

/-- What is known behind several expressions. -/
def Expr.resolveAll (c : Context) : List Expr → Context
  | [] => c
  | e :: rest => Expr.resolveAll (e.resolve c) rest

end

/-- What is known behind an expression that may be missing. -/
def Expr.resolveOption (c : Context) : Option Expr → Context
  | none => c
  | some e => e.resolve c

/-! ## Statements -/

namespace Context

/-- Enter the body of a loop. -/
def enterLoop (c : Context) : Context := { c with loopDepth := c.loopDepth + 1 }

/-- Leave the body of a loop. -/
def leaveLoop (c : Context) : Context := { c with loopDepth := c.loopDepth - 1 }

/-- Enter the body of a function. Its scope holds parameters and body, and no loop reaches into it. -/
def enterFunction (c : Context) (kind : FunctionKind) : Context :=
  { c.openScope with function := kind, loopDepth := 0 }

/-- Leave the body of a function for the place `outside`. -/
def leaveFunction (c outside : Context) : Context :=
  { c.closeScope with function := outside.function, loopDepth := outside.loopDepth }

/-- Declare a parameter. -/
def parameter (c : Context) (name : Token) : Context := (c.declare name).define name .parameter

/-- Read the superclass of a class and open the scope of `super`. -/
def enterSuperclass (c : Context) (className : Token) (superclass : Occurrence) : Context :=
  let c := c.check (superclass.name.lexeme == className.lexeme) .inheritsFromItself superclass.name
  let c := { c with classKind := .subclass }
  ((Expr.variable superclass).resolve c).openScope.bind Keyword.super.spelling .implicit

/-- Enter the body of a class and open the scope of `this`. -/
def enterClass (c : Context) (name : Token) (superclass : Option Occurrence) : Context :=
  let c := ({ c with classKind := .plain }.declare name).define name .class
  let c := match superclass with
    | none => c
    | some superclass => c.enterSuperclass name superclass
  c.openScope.bind Keyword.this.spelling .implicit

/-- Leave the body of a class for the place `outside`. -/
def leaveClass (c : Context) (superclass : Option Occurrence) (outside : Context) : Context :=
  let c := c.closeScope
  let c := match superclass with
    | none => c
    | some _ => c.closeScope
  { c with classKind := outside.classKind }

end Context

/-- The kind of function that a method is. -/
def Function.methodKind (f : Function) : FunctionKind :=
  if f.isInitializer then .initializer else .method

mutual

/-- What is known behind a statement. -/
def Stmt.resolve (c : Context) : Stmt → Context
  | .expression e => e.resolve c
  | .print e => e.resolve c
  | .var name initializer =>
    (Expr.resolveOption (c.declare name) initializer).define name .variable
  | .block body => (Stmt.resolveAll c.openScope body).closeScope
  | .ifElse condition thenBranch elseBranch =>
    Stmt.resolveOption (thenBranch.resolve (condition.resolve c)) elseBranch
  | .whileLoop condition body => (body.resolve (condition.resolve c).enterLoop).leaveLoop
  | .forLoop initializer condition increment body =>
    let c := Stmt.resolveOption c.openScope initializer
    let c := Expr.resolveOption (Expr.resolveOption c condition) increment
    (body.resolve c.enterLoop).leaveLoop.closeScope
  | .function declaration =>
    declaration.resolve .function ((c.declare declaration.name).define declaration.name .function)
  | .class declaration => declaration.resolve c
  | .return keyword value =>
    let c := c.check (c.function == .none) .returnOutsideFunction keyword
    let c := c.check (value.isSome && c.function == .initializer) .returnFromInitializer keyword
    Expr.resolveOption c value
  | .break keyword => c.check (c.loopDepth == 0) .breakOutsideLoop keyword
  | .continue keyword => c.check (c.loopDepth == 0) .continueOutsideLoop keyword

/-- What is known behind several statements. -/
def Stmt.resolveAll (c : Context) : List Stmt → Context
  | [] => c
  | s :: rest => Stmt.resolveAll (s.resolve c) rest

/-- What is known behind a statement that may be missing. -/
def Stmt.resolveOption (c : Context) : Option Stmt → Context
  | none => c
  | some s => s.resolve c

/-- What is known behind the parameters and the body of a function. -/
def Function.resolve (kind : FunctionKind) (c : Context) : Function → Context
  | ⟨_, params, body, _⟩ =>
    (Stmt.resolveAll (params.foldl Context.parameter (c.enterFunction kind)) body).leaveFunction c

/-- What is known behind the methods of a class. -/
def Function.resolveMethods (c : Context) : List Function → Context
  | [] => c
  | f :: rest => Function.resolveMethods (f.resolve f.methodKind c) rest

/-- What is known behind a class. -/
def Class.resolve (c : Context) : Class → Context
  | ⟨name, superclass, methods, _⟩ =>
    (Function.resolveMethods (c.enterClass name superclass) methods).leaveClass superclass c

end

/-! ## Programs -/

/-- What the walk over a program finds. -/
structure Resolution where
  distances : Distances
  symbols : SymbolGraph
  complaints : List Complaint

namespace Resolution

/-- The warnings about definitions that nobody uses. -/
def unusedComplaints (symbols : SymbolGraph) : List Complaint :=
  symbols.unused.map fun d => ⟨.unused d.token.lexeme, d.token.position⟩

/-- A static rule is broken. -/
def hasError (r : Resolution) : Bool := r.complaints.any Complaint.isError

/-- What is delivered to the host. -/
def reports (r : Resolution) : List Report := r.complaints.map Complaint.report

end Resolution

/-- Find the binding of every name of a program, and then the definitions that nobody uses. -/
def resolve (program : List Stmt) : Resolution :=
  let c := Stmt.resolveAll .start program
  ⟨c.distances, c.symbols, c.complaints.reverse ++ Resolution.unusedComplaints c.symbols⟩

end Lox
