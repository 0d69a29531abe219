import Mathlib.Data.List.Nodup
import Lox.Proofs.Syntax.Namings
import Lox.Proofs.Syntax.Order

/-!
# The variables of a tree

Some identifiers of a tree name its variables, functions, classes and parameters, and are looked up.
The other ones name properties of objects.

* `variableNames`: the identifiers that name no property;
* `Expr.names_words`, **`Stmt.names_words`**, …: the words of a tree that are identifiers are its
  variables;
* `nodup_namings`: a tree keeps no identifier twice;
* **`not_mem_words_of_property`**: so the name of a property is no word of the tree.
-/

namespace Lox

/-- The identifiers that name no property. -/
def variableNames (ns : List Naming) : List Token :=
  (ns.filter (·.role != .property)).map Naming.token

theorem variableNames_append (ns ms : List Naming) :
    variableNames (ns ++ ms) = variableNames ns ++ variableNames ms := by
  rw [variableNames, List.filter_append, List.map_append, variableNames, variableNames]

theorem variableNames_property (t : Token) (ns : List Naming) :
    variableNames (⟨t, .property⟩ :: ns) = variableNames ns := rfl

theorem variableNames_use (t : Token) (ns : List Naming) :
    variableNames (⟨t, .uses⟩ :: ns) = t :: variableNames ns := rfl

theorem variableNames_declaration (t : Token) (kind : SymbolKind) (ns : List Naming) :
    variableNames (⟨t, .declares kind⟩ :: ns) = t :: variableNames ns := rfl

theorem mem_variableNames {t : Token} {ns : List Naming} :
    t ∈ variableNames ns ↔ ∃ n ∈ ns, n.role ≠ .property ∧ n.token = t := by
  simp [variableNames, and_assoc]

mutual

theorem Expr.names_words : (e : Expr) → e.Regular → names e.words = variableNames e.namings
  | .literal _, _ => rfl
  | .grouping inner, .grouping h => inner.names_words h
  | .unary _ _ operand, .unary h => operand.names_words h
  | .binary left _ _ right, .binary h₁ h₂ | .logical left _ _ right, .logical h₁ h₂ => by
    rw [words, namings, names_append, variableNames_append, left.names_words h₁,
      right.names_words h₂]
  | .variable _, .variable h => names_name h.isName []
  | .assign _ value, .assign h₁ h₂ => by
    rw [words, namings, names_name h₁.isName, variableNames_use, value.names_words h₂]
  | .call callee arguments _, .call h₁ h₂ => by
    rw [words, namings, names_append, variableNames_append, callee.names_words h₁,
      Expr.names_wordsAll arguments h₂]
  | .get object _, .get h _ => by
    rw [words, namings, variableNames_append, object.names_words h]
    exact (List.append_nil _).symm
  | .set object _ value, .set h₁ _ h₂ => by
    rw [words, namings, names_append, variableNames_append, variableNames_property,
      object.names_words h₁, value.names_words h₂]
  | .this _, .this h => names_word h.isWord []
  | .super _ _, .super h _ => names_word h.isWord []

theorem Expr.names_wordsAll :
    (es : List Expr) → (∀ e ∈ es, e.Regular) → names (wordsAll es) = variableNames (namingsAll es)
  | [], _ => rfl
  | e :: rest, h => by
    obtain ⟨he, hrest⟩ := List.forall_mem_cons.mp h
    rw [wordsAll, namingsAll, names_append, variableNames_append, e.names_words he,
      Expr.names_wordsAll rest hrest]

end

theorem Expr.names_wordsOption (e : Option Expr) (h : ∀ x ∈ e, Expr.Regular x) :
    names (wordsOption e) = variableNames (namingsOption e) := by
  cases e with
  | none => rfl
  | some e => exact e.names_words (h e rfl)

theorem Occurrence.names_wordsOption (use : Option Occurrence) (h : ∀ u ∈ use, u.name.Names) :
    names (wordsOption use) = variableNames (namingsOption use) := by
  cases use with
  | none => rfl
  | some use => exact names_name (h use rfl).isName []

theorem variableNames_params (params : List Token) :
    variableNames (params.map (⟨·, .declares .parameter⟩)) = params := by
  induction params with
  | nil => rfl
  | cons t rest ih => rw [List.map_cons, variableNames_declaration, ih]

theorem names_params {params : List Token} (h : ∀ t ∈ params, t.Names) : names params = params :=
  List.filter_eq_self.mpr fun t ht => beq_iff_eq.mpr (h t ht).isName.terminal

mutual

/-- **The words of a statement that are identifiers are its variables**, in their order. -/
theorem Stmt.names_words : (s : Stmt) → s.Regular → names s.words = variableNames s.namings
  | .expression e, .expression h | .print e, .print h => e.names_words h
  | .var _ initializer, .var h₁ h₂ => by
    rw [Stmt.words, Stmt.namings, names_name h₁.isName, variableNames_declaration,
      Expr.names_wordsOption initializer h₂]
  | .block body, .block h => Stmt.names_wordsAll body h
  | .ifElse condition thenBranch elseBranch, .ifElse h₁ h₂ _ h₃ _ => by
    rw [Stmt.words, Stmt.namings, names_append, names_append, variableNames_append,
      variableNames_append, condition.names_words h₁, thenBranch.names_words h₂,
      Stmt.names_wordsOption elseBranch h₃]
  | .whileLoop condition body, .whileLoop h₁ h₂ _ => by
    rw [Stmt.words, Stmt.namings, names_append, variableNames_append, condition.names_words h₁,
      body.names_words h₂]
  | .forLoop initializer condition increment body, .forLoop h₁ _ h₂ h₃ h₄ _ => by
    rw [Stmt.words, Stmt.namings, names_append, names_append, names_append, variableNames_append,
      variableNames_append, variableNames_append, Stmt.names_wordsOption initializer h₁,
      Expr.names_wordsOption condition h₂, Expr.names_wordsOption increment h₃,
      body.names_words h₄]
  | .function declaration, .function h => by
    obtain ⟨hname, hparams, hbody⟩ := h
    rw [Stmt.words, Stmt.namings, names_name hname.isName, variableNames_declaration,
      Function.names_words _ (.mk hname hparams hbody)]
  | .class declaration, .class h => declaration.names_words h
  | .return _ value, .return h => Expr.names_wordsOption value h
  | .break _, _ | .continue _, _ => rfl

theorem Stmt.names_wordsAll : (ss : List Stmt) → (∀ s ∈ ss, s.Regular) →
    names (Stmt.wordsAll ss) = variableNames (Stmt.namingsAll ss)
  | [], _ => rfl
  | s :: rest, h => by
    obtain ⟨hs, hrest⟩ := List.forall_mem_cons.mp h
    rw [Stmt.wordsAll, Stmt.namingsAll, names_append, variableNames_append, s.names_words hs,
      Stmt.names_wordsAll rest hrest]

theorem Stmt.names_wordsOption : (s : Option Stmt) → (∀ t ∈ s, Stmt.Regular t) →
    names (Stmt.wordsOption s) = variableNames (Stmt.namingsOption s)
  | none, _ => rfl
  | some s, h => s.names_words (h s rfl)

theorem Function.names_words : (f : Function) → f.Regular → names f.words = variableNames f.namings
  | ⟨_, params, body, _⟩, .mk _ h₁ h₂ => by
    rw [Function.words, Function.namings, names_append, variableNames_append, names_params h₁,
      variableNames_params, Stmt.names_wordsAll body h₂]

theorem Function.names_wordsAll : (fs : List Function) → (∀ f ∈ fs, f.Regular) →
    names (Function.wordsAll fs) = variableNames (Function.namingsMethods fs)
  | [], _ => rfl
  | f :: rest, h => by
    obtain ⟨hf, hrest⟩ := List.forall_mem_cons.mp h
    rw [Function.wordsAll, Function.namingsMethods, names_append, variableNames_property,
      variableNames_append, f.names_words hf, Function.names_wordsAll rest hrest]

theorem Class.names_words : (c : Class) → c.Regular → names c.words = variableNames c.namings
  | ⟨_, superclass, methods, _⟩, .mk h₁ h₂ h₃ => by
    rw [Class.words, Class.namings, names_name h₁.isName, variableNames_declaration, names_append,
      variableNames_append, Occurrence.names_wordsOption superclass h₂,
      Function.names_wordsAll methods h₃]

end

/-! ## Texts -/

section

variable {source : String} {firstId : ExprId} (hclean : (parse source firstId).clean = true)

include hclean

/-- **The tree of a text without problems keeps no identifier twice.** -/
theorem nodup_namings :
    ((Stmt.namingsAll (parse source firstId).tree).map Naming.token).Nodup := by
  have hdistinct : ((tokens source).map Token.id).Nodup :=
    List.pairwise_map.mpr ((rising_tokens source).imp Nat.ne_of_lt)
  rw [names_of_clean source firstId hclean]
  exact hdistinct.of_map.filter _

/-- **The name of a property is no word of the tree.** -/
theorem not_mem_words_of_property {n : Naming}
    (hn : n ∈ Stmt.namingsAll (parse source firstId).tree) (hrole : n.role = .property) :
    n.token ∉ Stmt.wordsAll (parse source firstId).tree := by
  intro hword
  have hname : n.token ∈ names (tokens source) :=
    names_of_clean source firstId hclean ▸ List.mem_map_of_mem hn
  have hvariable := mem_names.mpr ⟨hword, (mem_names.mp hname).2⟩
  rw [Stmt.names_wordsAll _ (regular_parse source firstId), mem_variableNames] at hvariable
  obtain ⟨m, hm, hne, htoken⟩ := hvariable
  obtain rfl := List.inj_on_of_nodup_map (nodup_namings hclean) hm hn htoken
  exact hne hrole

end

end Lox
