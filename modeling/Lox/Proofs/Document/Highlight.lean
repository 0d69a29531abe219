import Lox.Proofs.Document.Analysis
import Lox.Proofs.Token.Tiling

/-!
# The colours of identifiers

* `Naming.Coloured`: which category an identifier has, by what it does at its place and what it
  declares or uses;
* `Stmt.highlight_eq`, …: the colours of a tree are those of its identifiers;
* **`highlight_of_valid`**: in a text without errors every identifier is coloured once.
-/

namespace Lox

namespace Naming

/-- The category of an identifier: that of the definition which it declares or uses, that of a
variable if it uses none, or that of a property. -/
inductive Coloured (g : SymbolGraph) : Naming → Category → Prop where
  | declares {t kind d} : g.definition t.id = some d → d.token = t →
      Coloured g ⟨t, .declares kind⟩ d.kind.category
  | uses {t d} : g.definitionOf t.id = some d → Coloured g ⟨t, .uses⟩ d.kind.category
  | unresolved {t} : g.definitionOf t.id = none → Coloured g ⟨t, .uses⟩ .variable
  | property {t} : Coloured g ⟨t, .property⟩ .property

/-- The coloured piece of text that an identifier is. -/
def highlight (g : SymbolGraph) (n : Naming) : SemanticToken :=
  match n.role with
  | .declares kind => .ofToken n.token kind.category
  | .uses => g.highlightUse n.token
  | .property => .ofToken n.token .property

variable {g : SymbolGraph}

theorem start_highlight (n : Naming) : (n.highlight g).start = n.token.position.start := by
  unfold highlight
  split <;> rfl

theorem stop_highlight (n : Naming) : (n.highlight g).stop = n.token.position.stop := by
  unfold highlight
  split <;> rfl

theorem coloured_highlight (n : Naming) (h : ∀ t kind, n.declaration? = some (t, kind) →
    ∃ d, g.definition t.id = some d ∧ d.token = t ∧ d.kind = kind) :
    n.Coloured g (n.highlight g).category := by
  obtain ⟨t, role⟩ := n
  cases role with
  | declares kind =>
    obtain ⟨d, hd, htoken, rfl⟩ := h t kind rfl
    exact .declares hd htoken
  | uses =>
    cases hd : g.definitionOf t.id with
    | none =>
      have hcategory : ((⟨t, .uses⟩ : Naming).highlight g).category = .variable := by
        simp [highlight, SymbolGraph.highlightUse, SemanticToken.ofToken, hd]
      exact hcategory ▸ .unresolved hd
    | some d =>
      have hcategory : ((⟨t, .uses⟩ : Naming).highlight g).category = d.kind.category := by
        simp [highlight, SymbolGraph.highlightUse, SemanticToken.ofToken, hd]
      exact hcategory ▸ .uses hd
  | property => exact .property

end Naming

/-! ## The colours of a tree -/

section

variable (g : SymbolGraph)

mutual

theorem Expr.highlight_eq : (e : Expr) → e.highlight g = e.namings.map (Naming.highlight g)
  | .literal _ | .this _ | .variable _ | .super _ _ => rfl
  | .grouping inner => inner.highlight_eq
  | .unary _ _ operand => operand.highlight_eq
  | .binary left _ _ right | .logical left _ _ right => by
    rw [Expr.highlight, namings, List.map_append, left.highlight_eq, right.highlight_eq]
  | .assign target value => congrArg (g.highlightUse target.name :: ·) value.highlight_eq
  | .call callee arguments _ => by
    rw [Expr.highlight, namings, List.map_append, callee.highlight_eq,
      Expr.highlightAll_eq arguments]
  | .get object name => by
    rw [Expr.highlight, namings, List.map_append, object.highlight_eq]
    rfl
  | .set object name value => by
    rw [Expr.highlight, namings, List.map_append, object.highlight_eq, value.highlight_eq]
    rfl

theorem Expr.highlightAll_eq :
    (es : List Expr) → Expr.highlightAll g es = (Expr.namingsAll es).map (Naming.highlight g)
  | [] => rfl
  | e :: rest => by
    rw [Expr.highlightAll, Expr.namingsAll, List.map_append, e.highlight_eq, Expr.highlightAll_eq rest]

end

theorem Expr.highlightOption_eq : (e : Option Expr) →
    Expr.highlightOption g e = (Expr.namingsOption e).map (Naming.highlight g)
  | none => rfl
  | some e => e.highlight_eq g

mutual

theorem Stmt.highlight_eq : (s : Stmt) → s.highlight g = s.namings.map (Naming.highlight g)
  | .expression e | .print e => e.highlight_eq g
  | .var name initializer =>
    congrArg (SemanticToken.ofToken name .variable :: ·) (Expr.highlightOption_eq g initializer)
  | .block body => Stmt.highlightAll_eq body
  | .ifElse condition thenBranch elseBranch => by
    rw [Stmt.highlight, Stmt.namings, List.map_append, List.map_append, condition.highlight_eq,
      thenBranch.highlight_eq, Stmt.highlightOption_eq elseBranch]
  | .whileLoop condition body => by
    rw [Stmt.highlight, Stmt.namings, List.map_append, condition.highlight_eq, body.highlight_eq]
  | .forLoop initializer condition increment body => by
    rw [Stmt.highlight, Stmt.namings, List.map_append, List.map_append, List.map_append,
      Stmt.highlightOption_eq initializer, Expr.highlightOption_eq g condition,
      Expr.highlightOption_eq g increment, body.highlight_eq]
  | .function declaration =>
    congrArg (SemanticToken.ofToken declaration.name .function :: ·) declaration.highlight_eq
  | .class declaration => declaration.highlight_eq
  | .return _ value => Expr.highlightOption_eq g value
  | .break _ | .continue _ => rfl

theorem Stmt.highlightAll_eq : (ss : List Stmt) →
    Stmt.highlightAll g ss = (Stmt.namingsAll ss).map (Naming.highlight g)
  | [] => rfl
  | s :: rest => by
    rw [Stmt.highlightAll, Stmt.namingsAll, List.map_append, s.highlight_eq, Stmt.highlightAll_eq rest]

theorem Stmt.highlightOption_eq : (s : Option Stmt) →
    Stmt.highlightOption g s = (Stmt.namingsOption s).map (Naming.highlight g)
  | none => rfl
  | some s => s.highlight_eq

theorem Function.highlight_eq : (f : Function) → f.highlight g = f.namings.map (Naming.highlight g)
  | ⟨_, params, body, _⟩ => by
    rw [Function.highlight, Function.namings, List.map_append, List.map_map, Stmt.highlightAll_eq body]
    rfl

theorem Function.highlightMethods_eq : (fs : List Function) →
    Function.highlightMethods g fs = (Function.namingsMethods fs).map (Naming.highlight g)
  | [] => rfl
  | f :: rest => by
    rw [Function.highlightMethods, Function.namingsMethods, List.map_cons, List.map_append,
      f.highlight_eq, Function.highlightMethods_eq rest]
    rfl

theorem Class.highlight_eq : (k : Class) → k.highlight g = k.namings.map (Naming.highlight g)
  | ⟨name, superclass, methods, _⟩ => by
    rw [Class.highlight, Class.namings, List.map_cons, List.map_append,
      Function.highlightMethods_eq methods]
    cases superclass <;> rfl

end

end

/-! ## Texts -/

theorem highlight_eq_map {g : SymbolGraph} {program : List Stmt}
    (h : ((Stmt.namingsAll program).map Naming.token).Pairwise fun t u =>
      t.position.start < u.position.start) :
    highlight g program = (Stmt.namingsAll program).map (Naming.highlight g) := by
  rw [highlight, Stmt.highlightAll_eq]
  refine List.mergeSort_of_pairwise ?_
  rw [List.pairwise_map] at h ⊢
  refine h.imp fun {n m} hlt => ?_
  rw [SemanticToken.before, n.start_highlight, m.start_highlight]
  simp [hlt]

/-- **In a text without errors every identifier is coloured once**, in the order of the text, with
the category of what it declares or uses: that of a variable where nothing declares it, and that
of a property where it names one. -/
theorem highlight_of_valid (source : String) (h : (analyze source).Valid) :
    (analyze source).semanticTokens.map (fun x => (x.start, x.stop)) =
        (names (tokens source)).map (fun t => (t.position.start, t.position.stop)) ∧
      ((analyze source).semanticTokens.Pairwise fun x y => x.start < y.start) ∧
      (Stmt.namingsAll (parse source 0).tree).map Naming.token = names (tokens source) ∧
      List.Forall₂ (fun n x => x.start = n.token.position.start ∧ x.stop = n.token.position.stop ∧
          n.Coloured (analyze source).symbols x.category)
        (Stmt.namingsAll (parse source 0).tree) (analyze source).semanticTokens := by
  obtain ⟨hclean, hsymbols, hhighlight, -⟩ := analyze_of_valid h
  have hnames := names_of_clean source 0 hclean
  have hrising : ((Stmt.namingsAll (parse source 0).tree).map Naming.token).Pairwise fun t u =>
      t.position.start < u.position.start := by
    rw [hnames]
    exact (starts_tokens source).sublist List.filter_sublist
  rw [hhighlight, highlight_eq_map hrising, hsymbols, ← hnames, List.map_map, List.map_map]
  refine ⟨?_, ?_, rfl, ?_⟩
  · refine List.map_congr_left fun n _ => ?_
    exact congrArg₂ Prod.mk n.start_highlight n.stop_highlight
  · rw [List.pairwise_map] at hrising ⊢
    refine hrising.imp fun {n m} hlt => ?_
    rwa [n.start_highlight, m.start_highlight]
  · rw [List.forall₂_map_right_iff, List.forall₂_same]
    intro n hn
    refine ⟨n.start_highlight, n.stop_highlight, n.coloured_highlight fun t kind hdecl => ?_⟩
    obtain ⟨d, hd, rfl, rfl⟩ := exists_definition.mp (List.mem_filterMap.mpr ⟨n, hn, hdecl⟩)
    exact ⟨d, (coherent_of_parse source 0).indexed.definition hd, rfl, rfl⟩

/-- A class, its superclass, a method and its parameter, a property, a global that nothing declares. -/
theorem highlight_of_valid_class :
    (analyze "class A < B \x7b m(p) \x7b p.q = super.m; \x7d \x7d print A;").Valid ∧
      (analyze "class A < B \x7b m(p) \x7b p.q = super.m; \x7d \x7d print A;").semanticTokens.map
          (fun x => (x.start, x.stop)) =
        (names (tokens "class A < B \x7b m(p) \x7b p.q = super.m; \x7d \x7d print A;")).map
          (fun t => (t.position.start, t.position.stop)) :=
  ⟨by decide +kernel, (highlight_of_valid _ (by decide +kernel)).1⟩

end Lox
