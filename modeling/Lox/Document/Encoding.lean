import Lox.Document.Analysis
import Lox.Text.Json

/-!
# An analysis as JSON

* `Analysis.json`: an analysis with the fields of every object in a fixed order.
-/

namespace Lox

open Text (Json)

/-- A position as an object. -/
def Position.json (p : Position) : Json :=
  .object [("line", .number p.line), ("start", .number p.start), ("end", .number p.stop)]

/-- A diagnostic as an object. -/
def Diagnostic.json (d : Diagnostic) : Json :=
  .object [("severity", .string d.severity.word), ("position", d.position.json),
    ("message", .string d.message)]

/-- A token as an object. -/
def Token.json (t : Token) : Json :=
  .object [("token_type", .string t.kind.name), ("lexeme", .string t.lexeme),
    ("line", .number t.position.line), ("start", .number t.position.start),
    ("end", .number t.position.stop), ("id", .number t.id)]

/-- A definition as an object. -/
def Definition.json (d : Definition) : Json :=
  .object [("token", d.token.json), ("kind", .string d.kind.word),
    ("references", .array (d.references.toList.map Token.json))]

/-- A symbol graph as an object. -/
def SymbolGraph.json (g : SymbolGraph) : Json :=
  .object [("definitions", .array (g.definitions.toList.map Definition.json))]

/-- A coloured piece of text as an object. -/
def SemanticToken.json (t : SemanticToken) : Json :=
  .object [("start", .number t.start), ("end", .number t.stop),
    ("category", .string t.category.word)]

mutual

/-- An entry of an outline as an object. -/
def OutlineEntry.json : OutlineEntry → Json
  | ⟨name, kind, range, selection, children⟩ =>
    .object [("name", .string name), ("kind", .string kind.word), ("range", range.json),
      ("selection", selection.json), ("children", .array (OutlineEntry.jsonAll children))]

/-- The entries of an outline, each as an object. -/
def OutlineEntry.jsonAll : List OutlineEntry → List Json
  | [] => []
  | entry :: rest => entry.json :: OutlineEntry.jsonAll rest

end

/-- An analysis as an object. -/
def Analysis.json (a : Analysis) : Json :=
  .object [("diagnostics", .array (a.diagnostics.map Diagnostic.json)), ("symbols", a.symbols.json),
    ("semantic_tokens", .array (a.semanticTokens.map SemanticToken.json)),
    ("outline", .array (OutlineEntry.jsonAll a.outline))]

end Lox
