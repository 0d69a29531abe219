import Lox.Binding.Resolve

/-!
# The look-ups of the resolver

* `Lookup`: a use of a name, with what is known in front of it;
* `Expr.lookups`, `Stmt.lookups`, `Function.lookups`, …: the uses that the walk over a part of a
  program makes, in their order.
-/

namespace Lox

/-- A use of a name in the course of a walk. -/
structure Lookup where
  /-- What is known in front of the use. -/
  context : Context
  occurrence : Occurrence

/-! ## Expressions -/

mutual

/-- The uses that the walk over an expression makes. -/
def Expr.lookups (c : Context) : Expr → List Lookup
  | .literal _ => []
  | .grouping inner => inner.lookups c
  | .unary _ _ operand => operand.lookups c
  | .binary left _ _ right => left.lookups c ++ right.lookups (left.resolve c)
  | .logical left _ _ right => left.lookups c ++ right.lookups (left.resolve c)
  | .variable use =>
    [⟨c.check (c.innermost? use.name.lexeme == some .uninitialized) .readInInitializer use.name, use⟩]
  | .assign target value => value.lookups c ++ [⟨value.resolve c, target⟩]
  | .call callee arguments _ => callee.lookups c ++ Expr.lookupsAll (callee.resolve c) arguments
  | .get object _ => object.lookups c
  | .set object _ value => object.lookups c ++ value.lookups (object.resolve c)
  | .this keyword =>
    match c.classKind with
    | .none => []
    | _ => [⟨c, keyword⟩]
  | .super keyword _ =>
    match c.classKind with
    | .none => []
    | .plain => []
    | .subclass => [⟨c, keyword⟩]

/-- The uses that the walk over several expressions makes. -/
def Expr.lookupsAll (c : Context) : List Expr → List Lookup
  | [] => []
  | e :: rest => e.lookups c ++ Expr.lookupsAll (e.resolve c) rest

end

/-- The uses that the walk over an expression makes that may be missing. -/
def Expr.lookupsOption (c : Context) : Option Expr → List Lookup
  | none => []
  | some e => e.lookups c

/-! ## Statements -/

namespace Context

/-- The use that reads the superclass of a class. -/
def superclassLookups (c : Context) (className : Token) (superclass : Occurrence) : List Lookup :=
  let c := c.check (superclass.name.lexeme == className.lexeme) .inheritsFromItself superclass.name
  (Expr.variable superclass).lookups { c with classKind := .subclass }

/-- The uses made in front of the methods of a class. -/
def classLookups (c : Context) (name : Token) : Option Occurrence → List Lookup
  | none => []
  | some superclass =>
    (({ c with classKind := .plain }.declare name).define name .class).superclassLookups name superclass

end Context

mutual

/-- The uses that the walk over a statement makes. -/
def Stmt.lookups (c : Context) : Stmt → List Lookup
  | .expression e => e.lookups c
  | .print e => e.lookups c
  | .var name initializer => Expr.lookupsOption (c.declare name) initializer
  | .block body => Stmt.lookupsAll c.openScope body
  | .ifElse condition thenBranch elseBranch =>
    condition.lookups c ++ thenBranch.lookups (condition.resolve c) ++
      Stmt.lookupsOption (thenBranch.resolve (condition.resolve c)) elseBranch
  | .whileLoop condition body => condition.lookups c ++ body.lookups (condition.resolve c).enterLoop
  | .forLoop initializer condition increment body =>
    let c₁ := Stmt.resolveOption c.openScope initializer
    let c₂ := Expr.resolveOption c₁ condition
    let c₃ := Expr.resolveOption c₂ increment
    Stmt.lookupsOption c.openScope initializer ++ Expr.lookupsOption c₁ condition ++
      Expr.lookupsOption c₂ increment ++ body.lookups c₃.enterLoop
  | .function declaration =>
    declaration.lookups .function ((c.declare declaration.name).define declaration.name .function)
  | .class declaration => declaration.lookups c
  | .return keyword value =>
    let c := c.check (c.function == .none) .returnOutsideFunction keyword
    let c := c.check (value.isSome && c.function == .initializer) .returnFromInitializer keyword
    Expr.lookupsOption c value
  | .break _ => []
  | .continue _ => []

/-- The uses that the walk over several statements makes. -/
def Stmt.lookupsAll (c : Context) : List Stmt → List Lookup
  | [] => []
  | s :: rest => s.lookups c ++ Stmt.lookupsAll (s.resolve c) rest

/-- The uses that the walk over a statement makes that may be missing. -/
def Stmt.lookupsOption (c : Context) : Option Stmt → List Lookup
  | none => []
  | some s => s.lookups c

/-- The uses that the walk over the body of a function makes. -/
def Function.lookups (kind : FunctionKind) (c : Context) : Function → List Lookup
  | ⟨_, params, body, _⟩ => Stmt.lookupsAll (params.foldl Context.parameter (c.enterFunction kind)) body

/-- The uses that the walk over the methods of a class makes. -/
def Function.lookupsMethods (c : Context) : List Function → List Lookup
  | [] => []
  | f :: rest => f.lookups f.methodKind c ++ Function.lookupsMethods (f.resolve f.methodKind c) rest

/-- The uses that the walk over a class makes. -/
def Class.lookups (c : Context) : Class → List Lookup
  | ⟨name, superclass, methods, _⟩ =>
    c.classLookups name superclass ++ Function.lookupsMethods (c.enterClass name superclass) methods

end

end Lox
