import Lox.Syntax.Tree

/-!
# The parenthesised form of a tree

Every node is written in front of its parts, in parentheses: `(1 + 2 * 6) - 13` becomes
`(- ((+ 1 (* 2 6))) 13)`.

* `Expr.text`, `Stmt.text`: the form of an expression and of a statement;
* `programText`: the form of a program, a line for each statement.
-/

namespace Lox

/-- The parts of a node between parentheses, separated by blanks. -/
def parenthesized (parts : List String) : String := "(" ++ " ".intercalate parts ++ ")"

/-- A constant; a string stands without quotes. -/
def Literal.text : Literal → String
  | number value => Number.text value
  | string contents => contents
  | boolean b => if b then "true" else "false"
  | nil => "nil"

mutual

/-- The parenthesised form of an expression. -/
def Expr.text : Expr → String
  | .literal value => value.text
  | .grouping inner => parenthesized [inner.text]
  | .unary _ operator operand => parenthesized [operator.lexeme, operand.text]
  | .binary left _ operator right => parenthesized [operator.lexeme, left.text, right.text]
  | .logical left _ operator right => parenthesized [operator.lexeme, left.text, right.text]
  | .variable use => use.name.lexeme
  | .assign target value => parenthesized ["=", target.name.lexeme, value.text]
  | .call callee arguments _ => parenthesized ("call" :: callee.text :: Expr.texts arguments)
  | .get object name => parenthesized ["get", object.text, name.lexeme]
  | .set object name value => parenthesized ["set", object.text, name.lexeme, value.text]
  | .this _ => "this"
  | .super _ method => parenthesized ["super", method.lexeme]

/-- The forms of several expressions. -/
def Expr.texts : List Expr → List String
  | [] => []
  | e :: rest => e.text :: Expr.texts rest

end

/-- The form of a clause that may be missing. -/
def clauseText : Option Expr → String
  | none => "nil"
  | some e => e.text

mutual

/-- The parenthesised form of a statement. -/
def Stmt.text : Stmt → String
  | .expression e => e.text
  | .print e => parenthesized ["print", e.text]
  | .var name none => parenthesized ["var", name.lexeme]
  | .var name (some e) => parenthesized ["var", name.lexeme, e.text]
  | .block body => parenthesized ("block" :: Stmt.texts body)
  | .ifElse condition thenBranch none => parenthesized ["if", condition.text, thenBranch.text]
  | .ifElse condition thenBranch (some elseBranch) =>
    parenthesized ["if", condition.text, thenBranch.text, elseBranch.text]
  | .whileLoop condition body => parenthesized ["while", condition.text, body.text]
  | .forLoop none condition increment body =>
    parenthesized ["for", "nil", clauseText condition, clauseText increment, body.text]
  | .forLoop (some initializer) condition increment body =>
    parenthesized ["for", initializer.text, clauseText condition, clauseText increment, body.text]
  | .function declaration => declaration.text
  | .class declaration => declaration.text
  | .return _ none => parenthesized ["return"]
  | .return _ (some e) => parenthesized ["return", e.text]
  | .break _ => parenthesized ["break"]
  | .continue _ => parenthesized ["continue"]

/-- The forms of several statements. -/
def Stmt.texts : List Stmt → List String
  | [] => []
  | s :: rest => s.text :: Stmt.texts rest

/-- The parenthesised form of a function. -/
def Function.text : Function → String
  | ⟨name, params, body, _⟩ =>
    parenthesized ("fun" :: name.lexeme :: parenthesized (params.map (·.lexeme)) :: Stmt.texts body)

/-- The forms of several functions. -/
def Function.texts : List Function → List String
  | [] => []
  | f :: rest => f.text :: Function.texts rest

/-- The parenthesised form of a class. -/
def Class.text : Class → String
  | ⟨name, none, methods, _⟩ => parenthesized ("class" :: name.lexeme :: Function.texts methods)
  | ⟨name, some superclass, methods, _⟩ =>
    parenthesized ("class" :: name.lexeme :: "<" :: superclass.name.lexeme :: Function.texts methods)

end

/-- The form of a program, a line for each statement. -/
def programText (program : List Stmt) : String := "\n".intercalate (program.map Stmt.text)

end Lox
