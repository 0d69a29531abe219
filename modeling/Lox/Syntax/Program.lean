import Lox.Syntax.Statement
import Lox.Report.Basic

/-!
# Parsing a text

* `Parsed`: what parsing a text yields: a tree, the problems in the order of the text, and the
  first number that no occurrence of the tree has;
* `parse`: the statements of a text, `parseExpression`: the single expression that a text is;
* `isExpression`: a text is one expression without any problem.
-/

namespace Lox

/-- What parsing a text yields. -/
structure Parsed (α : Type) where
  tree : α
  complaints : List Complaint
  nextId : ExprId

namespace Parsed

/-- No problem was noted. -/
def clean {α : Type} (p : Parsed α) : Bool := p.complaints.isEmpty

/-- What is delivered to the host. -/
def reports {α : Type} (p : Parsed α) : List Report := p.complaints.map Complaint.report

end Parsed

namespace Parser

/-- A bound on the depth of the tree of a text: every level of it takes a token, and two levels
stand above the first token. -/
def enoughFuel (items : List Item) : Nat := items.length + 2

/-- Run a rule on the items of a text; `otherwise` stands for a tree that was given up. -/
def run {α : Type} (rule : Nat → Parser α) (otherwise : α) (items : List Item) (firstId : ExprId) :
    Parsed α :=
  match rule (enoughFuel items) (Cursor.start items firstId) with
  | .ok tree c => ⟨tree, c.complaints.reverse, c.nextId⟩
  | .error _ c => ⟨otherwise, c.complaints.reverse, c.nextId⟩

/-- An expression behind which the text ends. -/
def wholeExpression (fuel : Nat) : Parser (Option Expr) := do
  let e ← expression fuel
  if (← peek) == .endOfInput then return some e
  else
    complain .missingEnd (← get).current
    return none

end Parser

/-- The statements of a text. A declaration with a problem that made the parser give it up is left
out. Occurrences are numbered from `firstId` on. -/
def parse (source : String) (firstId : ExprId) : Parsed (List Stmt) :=
  Parser.run Parser.declarations [] (scan source) firstId

/-- The expression that a text is. Lexical problems behind the first token that does not belong to
it are not noted. -/
def parseExpression (source : String) (firstId : ExprId) : Parsed (Option Expr) :=
  Parser.run Parser.wholeExpression none (scan source) firstId

/-- The text is one expression, without any problem. -/
def isExpression (source : String) : Bool :=
  let parsed := parseExpression source 0
  parsed.tree.isSome && parsed.clean

end Lox
