import Std.Data.TreeMap
import Lox.Token.Basic

/-!
# Declarations and their uses

* `SymbolKind`: what a declaration introduces, `Definition`: a declaration with all its uses;
* `SymbolGraph`: the definitions of a document in the order of their declarations, each found by
  its declaring token and by the tokens that use it;
* `SymbolGraph.define`, `SymbolGraph.refer`: adding a definition, and a use of one;
* `SymbolGraph.lookup`: the definition that a token declares or uses.
-/

namespace Lox

/-- What a declaration introduces. -/
inductive SymbolKind where
  | «class»
  | function
  | «variable»
  | parameter
  deriving DecidableEq, Repr

/-- The word for a kind of symbol. -/
def SymbolKind.word : SymbolKind → String
  | .class => "class"
  | .function => "function"
  | .variable => "variable"
  | .parameter => "parameter"

/-- A declaration together with every token that reads or writes what it introduces. -/
structure Definition where
  token : Token
  kind : SymbolKind
  references : Array Token

namespace Definition

/-- The declaring token and then every use. -/
def occurrences (d : Definition) : List Token := d.token :: d.references.toList

end Definition

/-- The definitions of a document with an index from declaring tokens and one from uses. -/
structure SymbolGraph where
  definitions : Array Definition
  declared : Std.TreeMap TokenId Nat
  used : Std.TreeMap TokenId Nat

namespace SymbolGraph

/-- Nothing is declared. -/
def empty : SymbolGraph := ⟨#[], ∅, ∅⟩

/-- Add a definition. -/
def define (g : SymbolGraph) (token : Token) (kind : SymbolKind) : SymbolGraph :=
  { g with
    definitions := g.definitions.push ⟨token, kind, #[]⟩
    declared := g.declared.insert token.id g.definitions.size }

/-- Add a use of the definition that the token `declaring` introduced. -/
def refer (g : SymbolGraph) (declaring : TokenId) (use : Token) : SymbolGraph :=
  match g.declared[declaring]? with
  | none => g
  | some index =>
    { g with
      definitions := g.definitions.modify index fun d => { d with references := d.references.push use }
      used := g.used.insert use.id index }

/-- The definition whose declaring token has the given number. -/
def definition (g : SymbolGraph) (id : TokenId) : Option Definition := do
  let index ← g.declared[id]?
  g.definitions[index]?

/-- The definition that the token with the given number uses. -/
def definitionOf (g : SymbolGraph) (id : TokenId) : Option Definition := do
  let index ← g.used[id]?
  g.definitions[index]?

/-- The definition that the token with the given number declares or uses. -/
def lookup (g : SymbolGraph) (id : TokenId) : Option Definition := g.definition id <|> g.definitionOf id

/-- The definitions that nobody uses, in the order of their declarations. -/
def unused (g : SymbolGraph) : List Definition :=
  g.definitions.toList.filter (·.references.isEmpty)

end SymbolGraph

end Lox
