import Lox.Syntax.Tree

/-!
# Trees without their numbers

The numbers of the occurrences are given away by the parser; a text does not determine them.

* `Expr.unnumbered`, `Stmt.unnumbered`, …: a tree all of whose occurrences have the number 0.
-/

namespace Lox

/-- An occurrence without its number. -/
def Occurrence.unnumbered (use : Occurrence) : Occurrence := ⟨0, use.name⟩

mutual

/-- An expression without the numbers of its occurrences. -/
def Expr.unnumbered : Expr → Expr
  | .literal value => .literal value
  | .grouping inner => .grouping inner.unnumbered
  | .unary op operator operand => .unary op operator operand.unnumbered
  | .binary left op operator right => .binary left.unnumbered op operator right.unnumbered
  | .logical left op operator right => .logical left.unnumbered op operator right.unnumbered
  | .variable use => .variable use.unnumbered
  | .assign target value => .assign target.unnumbered value.unnumbered
  | .call callee arguments paren =>
    .call callee.unnumbered (Expr.unnumberedAll arguments) paren
  | .get object name => .get object.unnumbered name
  | .set object name value => .set object.unnumbered name value.unnumbered
  | .this keyword => .this keyword.unnumbered
  | .super keyword method => .super keyword.unnumbered method

/-- Expressions without the numbers of their occurrences. -/
def Expr.unnumberedAll : List Expr → List Expr
  | [] => []
  | e :: rest => e.unnumbered :: Expr.unnumberedAll rest

end

mutual

/-- A statement without the numbers of its occurrences. -/
def Stmt.unnumbered : Stmt → Stmt
  | .expression e => .expression e.unnumbered
  | .print e => .print e.unnumbered
  | .var name initializer => .var name (initializer.map Expr.unnumbered)
  | .block body => .block (Stmt.unnumberedAll body)
  | .ifElse condition thenBranch elseBranch =>
    .ifElse condition.unnumbered thenBranch.unnumbered (Stmt.unnumberedOption elseBranch)
  | .whileLoop condition body => .whileLoop condition.unnumbered body.unnumbered
  | .forLoop initializer condition increment body =>
    .forLoop (Stmt.unnumberedOption initializer) (condition.map Expr.unnumbered)
      (increment.map Expr.unnumbered) body.unnumbered
  | .function declaration => .function declaration.unnumbered
  | .class declaration => .class declaration.unnumbered
  | .return keyword value => .return keyword (value.map Expr.unnumbered)
  | .break keyword => .break keyword
  | .continue keyword => .continue keyword

/-- Statements without the numbers of their occurrences. -/
def Stmt.unnumberedAll : List Stmt → List Stmt
  | [] => []
  | s :: rest => s.unnumbered :: Stmt.unnumberedAll rest

/-- A statement that may be missing, without the numbers of its occurrences. -/
def Stmt.unnumberedOption : Option Stmt → Option Stmt
  | none => none
  | some s => some s.unnumbered

/-- A function without the numbers of its occurrences. -/
def Function.unnumbered : Function → Function
  | ⟨name, params, body, span⟩ => ⟨name, params, Stmt.unnumberedAll body, span⟩

/-- Functions without the numbers of their occurrences. -/
def Function.unnumberedAll : List Function → List Function
  | [] => []
  | f :: rest => f.unnumbered :: Function.unnumberedAll rest

/-- A class without the numbers of its occurrences. -/
def Class.unnumbered : Class → Class
  | ⟨name, superclass, methods, span⟩ =>
    ⟨name, superclass.map Occurrence.unnumbered, Function.unnumberedAll methods, span⟩

end

end Lox
