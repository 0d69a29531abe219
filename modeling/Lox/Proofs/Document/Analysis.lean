import Lox.Proofs.Binding.Coherent
import Lox.Proofs.Session.Verdict

/-!
# What an analysis rests on

* `valid_iff`: what a text without errors is;
* **`analyze_of_valid`**: a text without errors has a tree, and its analysis shows the symbols, the
  colours and the outline of it;
* `symbols_analyze`: the symbols of any text are those of its tree, or there are none because of its
  syntax;
* `exists_definition`: what a tree declares is defined by its symbols.
-/

namespace Lox

/-- An analysis shows no error. -/
def Analysis.Valid (a : Analysis) : Prop := a.diagnostics.any Diagnostic.isError = false

instance (a : Analysis) : Decidable a.Valid := inferInstanceAs (Decidable (_ = _))

variable {source : String}

/-- An analysis shows no error if and only if neither the syntax of the text nor a rule is broken. -/
theorem valid_iff : (analyze source).Valid ↔ (parse source 0).clean = true ∧
    (resolve (parse source 0).tree).hasError = false := by
  have hvalid : (analyze source).Valid ↔
      (staticComplaints source 0).any Complaint.isError = false := by
    rw [Analysis.Valid, diagnostics_analyze, List.any_map]
    refine iff_of_eq (congrArg (List.any _ · = false) (funext fun c => ?_))
    exact c.isError_diagnostic
  rw [hvalid]
  cases hclean : (parse source 0).clean with
  | false =>
    rw [any_isError_of_unclean hclean]
    exact iff_of_false nofun nofun
  | true =>
    rw [staticComplaints, if_pos hclean]
    exact (and_iff_right rfl).symm

/-- **The analysis of a text without errors** shows what its tree has. -/
theorem analyze_of_valid (h : (analyze source).Valid) :
    (parse source 0).clean = true ∧
      (analyze source).symbols = (resolve (parse source 0).tree).symbols ∧
      (analyze source).semanticTokens =
        highlight (resolve (parse source 0).tree).symbols (parse source 0).tree ∧
      (analyze source).outline = outline (parse source 0).tree := by
  obtain ⟨hclean, hrules⟩ := valid_iff.mp h
  simp [analyze, hclean, hrules]

theorem symbols_analyze (source : String) : (analyze source).symbols = .empty ∨
    (parse source 0).clean = true ∧
      (analyze source).symbols = (resolve (parse source 0).tree).symbols := by
  cases hclean : (parse source 0).clean with
  | false => exact .inl (by simp [analyze, hclean])
  | true =>
    refine .inr ⟨rfl, ?_⟩
    cases hrules : (resolve (parse source 0).tree).hasError <;> simp [analyze, hclean, hrules]

theorem exists_definition {program : List Stmt} {t : Token} {kind : SymbolKind} :
    (t, kind) ∈ Stmt.introducedAll program ↔
      ∃ d ∈ (resolve program).symbols.definitions, d.token = t ∧ d.kind = kind := by
  rw [← definitions_of_resolve, SymbolGraph.declarations]
  simp

end Lox
