import Lox.Binding.Resolve
import Lox.Document.Highlight
import Lox.Document.Outline
import Lox.Syntax.Program

/-!
# What an editor knows of a document

* `Analysis`, `analyze`: the problems, symbols, colours and outline of a document;
* `Analysis.definitionAt`, `Analysis.referencesAt`: the symbol under a cursor and its occurrences;
* `Analysis.rename`: the edits that give it another name.
-/

namespace Lox

/-- What an editor knows of a document. -/
structure Analysis where
  diagnostics : List Diagnostic
  symbols : SymbolGraph
  semanticTokens : List SemanticToken
  outline : List OutlineEntry

/-- Analyse a document. With a problem of its syntax nothing else is known of it; with a broken
static rule only its symbols are. -/
def analyze (source : String) : Analysis :=
  let parsed := parse source 0
  let diagnostics := parsed.reports.map Report.diagnostic
  if !parsed.clean then ⟨diagnostics, .empty, [], []⟩
  else
    let resolution := resolve parsed.tree
    let diagnostics := resolution.reports.map Report.diagnostic
    if resolution.hasError then ⟨diagnostics, resolution.symbols, [], []⟩
    else
      ⟨diagnostics, resolution.symbols, highlight resolution.symbols parsed.tree,
        Lox.outline parsed.tree⟩

/-- Put other text in the place of a piece of the document. -/
structure TextEdit where
  position : Position
  newText : String
  deriving DecidableEq, Repr

namespace Definition

/-- A cursor at `offset` touches the declaration or a use. -/
def covers (d : Definition) (offset : Nat) : Bool :=
  d.token.position.contains offset || d.references.any (·.position.contains offset)

end Definition

namespace Analysis

/-- The first definition that a cursor touches. -/
def definitionAt (a : Analysis) (offset : Nat) : Option Definition :=
  a.symbols.definitions.find? (·.covers offset)

/-- The declaration and then every use of the symbol that a cursor touches. -/
def referencesAt (a : Analysis) (offset : Nat) : List Token :=
  match a.definitionAt offset with
  | some d => d.occurrences
  | none => []

/-- The edits that give the symbol that a cursor touches another name. -/
def rename (a : Analysis) (offset : Nat) (newName : String) : List TextEdit :=
  (a.referencesAt offset).map fun t => ⟨t.position, newName⟩

end Analysis

end Lox
