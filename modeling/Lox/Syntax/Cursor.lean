import Lox.Syntax.Tree
import Lox.Token.Scanner

/-!
# Reading tokens

The grammar reads the items of a text with one token of lookahead. Lexical problems that stand
between two tokens are noted when the second one comes into view, so that all problems are noted
in the order of the text.

* `Cursor`: the token in view, the items behind it and what was noted so far;
* `Parser`: a grammar rule, which may stop with a `Halt`;
* `peek`, `advance`, `accept?`, `expect`: looking at the token in view and moving past it;
* `complain`, `fail`: noting a problem, and giving up with one.
-/

namespace Lox

/-- A place in the items of a text. -/
structure Cursor where
  /-- The token in view. -/
  current : Token
  /-- The items behind it. -/
  pending : List Item
  nextId : ExprId
  /-- The problems noted so far, the last one first. -/
  complaints : List Complaint

/-- Why a grammar rule stopped. -/
inductive Halt where
  /-- A problem was noted and the declaration at hand is given up. -/
  | syntaxProblem
  /-- The bound on the depth of the tree was reached. -/
  | outOfFuel
  deriving DecidableEq, Repr

/-- A rule of the grammar. -/
abbrev Parser := EStateM Halt Cursor

namespace Cursor

/-- The next token of the items, noting the lexical problems in front of it; `last` stands in when
no token is left. -/
def pull (last : Token) (complaints : List Complaint) : List Item → Token × List Item × List Complaint
  | [] => (last, [], complaints)
  | .ok t :: rest => (t, rest, complaints)
  | .error p :: rest => pull last (⟨.lexical p.value, p.position⟩ :: complaints) rest

/-- A cursor in front of the items of a text. -/
def start (items : List Item) (firstId : ExprId) : Cursor :=
  let (current, pending, complaints) := pull Token.endOfNothing [] items
  ⟨current, pending, firstId, complaints⟩

/-- The end of the text is in view. -/
def atEnd (c : Cursor) : Bool := c.current.terminal == .endOfInput

/-- Bring the next token into view. The end of the text is never passed. -/
def advance (c : Cursor) : Cursor :=
  if c.atEnd then c
  else
    let (current, pending, complaints) := pull c.current c.complaints c.pending
    { c with current := current, pending := pending, complaints := complaints }

/-- Note a problem. -/
def note (problem : SyntaxProblem) (position : Position) (c : Cursor) : Cursor :=
  { c with complaints := ⟨.syntactic problem, position⟩ :: c.complaints }

end Cursor

namespace Parser

/-- The kind of the token in view. -/
def peek : Parser Terminal := do return (← get).current.terminal

/-- Move past the token in view. -/
def advance : Parser Token := do
  let c ← get
  set c.advance
  return c.current

/-- Move past the token in view if it is of the given kind. -/
def accept? (terminal : Terminal) : Parser (Option Token) := do
  if (← peek) == terminal then return some (← advance) else return none

/-- The token in view is not of the given kind and the text does not end with it. -/
def goesOnUnless (terminal : Terminal) : Parser Bool := do
  let seen ← peek
  return seen != terminal && seen != .endOfInput

/-- Note a problem at a token. -/
def complain (problem : SyntaxProblem) (place : Token) : Parser Unit :=
  modify (·.note problem place.position)

/-- Note a problem at the token in view and give up. -/
def fail {α : Type} (problem : SyntaxProblem) : Parser α := do
  complain problem (← get).current
  throw .syntaxProblem

/-- Move past a token of the given kind, or give up with `problem`. -/
def expect (terminal : Terminal) (problem : SyntaxProblem) : Parser Token := do
  match ← accept? terminal with
  | some t => return t
  | none => fail problem

/-- Move past a punctuation mark, or give up because it is missing. -/
def expectMark (mark : Punct) (place : Place) : Parser Token :=
  expect (.punct mark) (.missingMark mark place)

/-- Move past an identifier, or give up because a name is missing. -/
def expectName (named : Named) : Parser Token := expect .identifier (.missingName named)

/-- Number a new occurrence. -/
def freshId : Parser ExprId := modifyGet fun c => (c.nextId, { c with nextId := c.nextId + 1 })

/-- Stop because the tree is too deep. -/
def outOfFuel {α : Type} : Parser α := throw .outOfFuel

end Parser

end Lox
