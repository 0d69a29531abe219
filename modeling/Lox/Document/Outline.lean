import Lox.Syntax.Tree

/-!
# The outline of a document

* `OutlineKind`, `OutlineEntry`: an entry for a declaration, with those inside it;
* `Stmt.outline`: the declarations of a statement that lie in no other one;
* `outline`: the outline of a program.
-/

namespace Lox

/-- What an entry of an outline stands for. -/
inductive OutlineKind where
  | «class»
  | method
  | function
  | «variable»
  deriving DecidableEq, Repr

/-- The word for a kind of entry. -/
def OutlineKind.word : OutlineKind → String
  | .class => "class"
  | .method => "method"
  | .function => "function"
  | .variable => "variable"

/-- An entry of an outline: `range` is the whole declaration, `selection` its name. -/
structure OutlineEntry where
  name : String
  kind : OutlineKind
  range : Position
  selection : Position
  children : List OutlineEntry

mutual

/-- The declarations of a statement that lie in no other declaration. -/
def Stmt.outline : Stmt → List OutlineEntry
  | .var name _ => [⟨name.lexeme, .variable, name.position, name.position, []⟩]
  | .function declaration => [declaration.outline .function]
  | .class declaration => [declaration.outline]
  | .block body => Stmt.outlineAll body
  | .ifElse _ thenBranch elseBranch => thenBranch.outline ++ Stmt.outlineOption elseBranch
  | .whileLoop _ body => body.outline
  | .forLoop initializer _ _ body => Stmt.outlineOption initializer ++ body.outline
  | .expression _ => []
  | .print _ => []
  | .return _ _ => []
  | .break _ => []
  | .continue _ => []

/-- The declarations of several statements. -/
def Stmt.outlineAll : List Stmt → List OutlineEntry
  | [] => []
  | s :: rest => s.outline ++ Stmt.outlineAll rest

/-- The declarations of a statement that may be missing. -/
def Stmt.outlineOption : Option Stmt → List OutlineEntry
  | none => []
  | some s => s.outline

/-- The entry of a function or method. -/
def Function.outline (kind : OutlineKind) : Function → OutlineEntry
  | ⟨name, _, body, span⟩ => ⟨name.lexeme, kind, span, name.position, Stmt.outlineAll body⟩

/-- The entries of the methods of a class. -/
def Function.outlineMethods : List Function → List OutlineEntry
  | [] => []
  | f :: rest => f.outline .method :: Function.outlineMethods rest

/-- The entry of a class. -/
def Class.outline : Class → OutlineEntry
  | ⟨name, _, methods, span⟩ =>
    ⟨name.lexeme, .class, span, name.position, Function.outlineMethods methods⟩

end

/-- The outline of a program. -/
def outline (program : List Stmt) : List OutlineEntry := Stmt.outlineAll program

end Lox
