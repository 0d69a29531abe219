import Lox.Binding.SymbolGraph
import Lox.Syntax.Tree

/-!
# Highlighting identifiers

* `Category`: how an identifier is coloured, `SemanticToken`: a coloured piece of text;
* `Expr.highlight`, `Stmt.highlight`: the coloured identifiers of a part of a program;
* `highlight`: those of a program, in the order of the text.
-/

namespace Lox

/-- How an identifier is coloured. -/
inductive Category where
  | «class»
  | function
  | «variable»
  | parameter
  | property
  deriving DecidableEq, Repr

/-- The word for a category. -/
def Category.word : Category → String
  | .class => "class"
  | .function => "function"
  | .variable => "variable"
  | .parameter => "parameter"
  | .property => "property"

/-- The category of what a declaration introduces. -/
def SymbolKind.category : SymbolKind → Category
  | .class => .class
  | .function => .function
  | .variable => .variable
  | .parameter => .parameter

/-- A coloured piece of text. -/
structure SemanticToken where
  start : Nat
  stop : Nat
  category : Category
  deriving DecidableEq, Repr

namespace SemanticToken

/-- A coloured identifier. -/
def ofToken (t : Token) (category : Category) : SemanticToken :=
  ⟨t.position.start, t.position.stop, category⟩

/-- The order of the text. -/
def before (a b : SemanticToken) : Bool := a.start < b.start || (a.start == b.start && a.stop ≤ b.stop)

end SemanticToken

namespace SymbolGraph

/-- A use has the colour of what it was resolved to; a global that nothing declares is a variable. -/
def highlightUse (g : SymbolGraph) (t : Token) : SemanticToken :=
  .ofToken t (((g.definitionOf t.id).map fun d => d.kind.category).getD .variable)

end SymbolGraph

mutual

/-- The identifiers of an expression. -/
def Expr.highlight (g : SymbolGraph) : Expr → List SemanticToken
  | .literal _ => []
  | .grouping inner => inner.highlight g
  | .unary _ _ operand => operand.highlight g
  | .binary left _ _ right => left.highlight g ++ right.highlight g
  | .logical left _ _ right => left.highlight g ++ right.highlight g
  | .variable use => [g.highlightUse use.name]
  | .assign target value => g.highlightUse target.name :: value.highlight g
  | .call callee arguments _ => callee.highlight g ++ Expr.highlightAll g arguments
  | .get object name => object.highlight g ++ [.ofToken name .property]
  | .set object name value => object.highlight g ++ .ofToken name .property :: value.highlight g
  | .this _ => []
  | .super _ method => [.ofToken method .property]

/-- The identifiers of several expressions. -/
def Expr.highlightAll (g : SymbolGraph) : List Expr → List SemanticToken
  | [] => []
  | e :: rest => e.highlight g ++ Expr.highlightAll g rest

end

/-- The identifiers of an expression that may be missing. -/
def Expr.highlightOption (g : SymbolGraph) : Option Expr → List SemanticToken
  | none => []
  | some e => e.highlight g

mutual

/-- The identifiers of a statement. -/
def Stmt.highlight (g : SymbolGraph) : Stmt → List SemanticToken
  | .expression e => e.highlight g
  | .print e => e.highlight g
  | .var name initializer => .ofToken name .variable :: Expr.highlightOption g initializer
  | .block body => Stmt.highlightAll g body
  | .ifElse condition thenBranch elseBranch =>
    condition.highlight g ++ thenBranch.highlight g ++ Stmt.highlightOption g elseBranch
  | .whileLoop condition body => condition.highlight g ++ body.highlight g
  | .forLoop initializer condition increment body =>
    Stmt.highlightOption g initializer ++ Expr.highlightOption g condition ++
      Expr.highlightOption g increment ++ body.highlight g
  | .function declaration => .ofToken declaration.name .function :: declaration.highlight g
  | .class declaration => declaration.highlight g
  | .return _ value => Expr.highlightOption g value
  | .break _ => []
  | .continue _ => []

/-- The identifiers of several statements. -/
def Stmt.highlightAll (g : SymbolGraph) : List Stmt → List SemanticToken
  | [] => []
  | s :: rest => s.highlight g ++ Stmt.highlightAll g rest

/-- The identifiers of a statement that may be missing. -/
def Stmt.highlightOption (g : SymbolGraph) : Option Stmt → List SemanticToken
  | none => []
  | some s => s.highlight g

/-- The identifiers of a function behind its name. -/
def Function.highlight (g : SymbolGraph) : Function → List SemanticToken
  | ⟨_, params, body, _⟩ =>
    params.map (SemanticToken.ofToken · .parameter) ++ Stmt.highlightAll g body

/-- The identifiers of the methods of a class. -/
def Function.highlightMethods (g : SymbolGraph) : List Function → List SemanticToken
  | [] => []
  | f :: rest =>
    .ofToken f.name .property :: (f.highlight g ++ Function.highlightMethods g rest)

/-- The identifiers of a class. -/
def Class.highlight (g : SymbolGraph) : Class → List SemanticToken
  | ⟨name, superclass, methods, _⟩ =>
    .ofToken name .class ::
      ((superclass.map fun use => g.highlightUse use.name).toList ++ Function.highlightMethods g methods)

end

/-- The coloured identifiers of a program, in the order of the text. -/
def highlight (g : SymbolGraph) (program : List Stmt) : List SemanticToken :=
  (Stmt.highlightAll g program).mergeSort SemanticToken.before

end Lox
