import Lox.Token.Basic

/-!
# Syntax trees

* `Expr`: expressions, `Occurrence`: a place of an expression where a binding is read or written;
* `Stmt`: statements and declarations, `Function` and `Class`: what a declaration holds.
-/

namespace Lox

/-- The number of an occurrence; the distance from a use to its binding is recorded under it. -/
abbrev ExprId := Nat

/-- A place where a name is read or written. -/
structure Occurrence where
  id : ExprId
  name : Token

/-- A constant that stands in the source text. -/
inductive Literal where
  | number (value : Float)
  | string (contents : String)
  | boolean (b : Bool)
  | nil

/-- The operators with one operand. -/
inductive UnaryOp where
  | negate
  | not
  deriving DecidableEq, Repr

/-- The operators that evaluate both operands. -/
inductive BinaryOp where
  | add | subtract | multiply | divide
  | equal | notEqual
  | less | lessEqual | greater | greaterEqual
  deriving DecidableEq, Repr

/-- The operators that may leave out their second operand. -/
inductive LogicalOp where
  | and
  | or
  deriving DecidableEq, Repr

namespace UnaryOp

/-- The token an operator is written with. -/
def terminal : UnaryOp → Terminal
  | negate => .punct .minus
  | not => .punct .bang

end UnaryOp

namespace BinaryOp

/-- The mark an operator is written with. -/
def punct : BinaryOp → Punct
  | add => .plus
  | subtract => .minus
  | multiply => .star
  | divide => .slash
  | equal => .equalEqual
  | notEqual => .bangEqual
  | less => .less
  | lessEqual => .lessEqual
  | greater => .greater
  | greaterEqual => .greaterEqual

/-- The spelling of an operator. -/
def spelling (op : BinaryOp) : String := op.punct.spelling

end BinaryOp

namespace LogicalOp

/-- The word an operator is written with. -/
def keyword : LogicalOp → Keyword
  | and => .and
  | or => .or

end LogicalOp

/-- Expressions. Operators keep the token they were written with. -/
inductive Expr where
  | literal (value : Literal)
  | grouping (inner : Expr)
  | unary (op : UnaryOp) (operator : Token) (operand : Expr)
  | binary (left : Expr) (op : BinaryOp) (operator : Token) (right : Expr)
  | logical (left : Expr) (op : LogicalOp) (operator : Token) (right : Expr)
  | variable (use : Occurrence)
  | assign (target : Occurrence) (value : Expr)
  /-- A call keeps its closing parenthesis, where its failures are reported. -/
  | call (callee : Expr) (arguments : List Expr) (paren : Token)
  | get (object : Expr) (name : Token)
  | set (object : Expr) (name : Token) (value : Expr)
  | this (keyword : Occurrence)
  | super (keyword : Occurrence) (method : Token)

mutual

/-- Statements and declarations. -/
inductive Stmt where
  | expression (e : Expr)
  | print (e : Expr)
  | var (name : Token) (initializer : Option Expr)
  | block (body : List Stmt)
  | ifElse (condition : Expr) (thenBranch : Stmt) (elseBranch : Option Stmt)
  | whileLoop (condition : Expr) (body : Stmt)
  | forLoop (initializer : Option Stmt) (condition increment : Option Expr) (body : Stmt)
  | function (declaration : Function)
  | «class» (declaration : Class)
  | return (keyword : Token) (value : Option Expr)
  | break (keyword : Token)
  | continue (keyword : Token)

/-- The declaration of a function or method. -/
structure Function where
  name : Token
  params : List Token
  body : List Stmt
  /-- From the first token of the declaration to its closing brace. -/
  span : Position

/-- The declaration of a class. -/
structure Class where
  name : Token
  superclass : Option Occurrence
  methods : List Function
  /-- From the word `class` to the closing brace. -/
  span : Position

end

/-- The name of the method that sets up a new instance. -/
def initializerName : String := "init"

namespace Function

/-- The method sets up new instances. -/
def isInitializer (f : Function) : Bool := f.name.lexeme == initializerName

end Function

end Lox
