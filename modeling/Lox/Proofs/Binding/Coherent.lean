import Lox.Proofs.Binding.Links
import Lox.Proofs.Binding.Steps

/-!
# The symbols of a program

* `SymbolGraph.occurrences`: all tokens that declare or use something;
* `SymbolGraph.Indexed`: the look-up of a definition by a token that declares or uses it finds this
  definition and no other one;
* `Context.Coherent`: the symbols are indexed, what the open scopes bind is declared, and uses are
  spelled like their declarations; `Context.Steps.coherent`: every row of steps keeps this;
* **`occurrences_of_parse`**, **`coherent_of_parse`**: in the symbols of a text every word occurs at
  most once, and they are coherent.
-/

namespace Lox

theorem Definition.mem_occurrences {d : Definition} {t : Token} :
    t ∈ d.occurrences ↔ t = d.token ∨ t ∈ d.references := by
  rw [occurrences, List.mem_cons, Array.mem_toList_iff]

namespace SymbolGraph

/-- All tokens that declare or use something. -/
def occurrences (g : SymbolGraph) : List Token := g.definitions.toList.flatMap Definition.occurrences

/-- The definition that a token declares or uses is found by the number of the token. -/
structure Indexed (g : SymbolGraph) : Prop where
  declared : ∀ id i, g.declared[id]? = some i ↔
    ∃ d : Definition, g.definitions[i]? = some d ∧ d.token.id = id
  used : ∀ id i, g.used[id]? = some i ↔
    ∃ d : Definition, g.definitions[i]? = some d ∧ ∃ r ∈ d.references, r.id = id

variable {g : SymbolGraph} {t use : Token} {declaring : TokenId}

theorem mem_occurrences : t ∈ g.occurrences ↔ ∃ d ∈ g.definitions, t ∈ d.occurrences := by
  simp [occurrences]

/-! ## A new definition -/

theorem occurrences_define (kind : SymbolKind) :
    (g.define t kind).occurrences = g.occurrences ++ [t] := by
  simp [occurrences, define, Definition.occurrences]

theorem getElem?_define (kind : SymbolKind) {i : Nat} {d : Definition} :
    (g.define t kind).definitions[i]? = some d ↔
      (i = g.definitions.size ∧ d = ⟨t, kind, #[]⟩) ∨ g.definitions[i]? = some d := by
  rw [define, Array.getElem?_push]
  by_cases hi : i = g.definitions.size
  · simp [hi, eq_comm]
  · simp [hi]

theorem Indexed.define (h : g.Indexed) (kind : SymbolKind)
    (hnew : ∀ d ∈ g.definitions, d.token.id ≠ t.id) : (g.define t kind).Indexed where
  declared id i := by
    simp only [getElem?_define]
    rw [SymbolGraph.define, Std.TreeMap.getElem?_insert]
    by_cases hid : t.id = id
    · subst hid
      simp only [Nat.compare_eq_eq, if_true, Option.some.injEq]
      constructor
      · rintro rfl
        exact ⟨_, .inl ⟨rfl, rfl⟩, rfl⟩
      · rintro ⟨d, ⟨hi, -⟩ | hd, hdt⟩
        · exact hi.symm
        · exact absurd hdt (hnew d (Array.mem_of_getElem? hd))
    · rw [if_neg (by simpa using hid), h.declared]
      constructor
      · rintro ⟨d, hd, hdt⟩
        exact ⟨d, .inr hd, hdt⟩
      · rintro ⟨d, ⟨-, rfl⟩ | hd, hdt⟩
        · exact absurd hdt hid
        · exact ⟨d, hd, hdt⟩
  used id i := by
    simp only [getElem?_define]
    refine (h.used id i).trans ⟨?_, ?_⟩
    · rintro ⟨d, hd, hr⟩
      exact ⟨d, .inr hd, hr⟩
    · rintro ⟨d, ⟨-, rfl⟩ | hd, hr⟩
      · simp at hr
      · exact ⟨d, hd, hr⟩

/-! ## A new use -/

/-- A use is added to the definition with the given index. -/
def referAt (g : SymbolGraph) (index : Nat) (use : Token) : SymbolGraph :=
  { g with
    definitions := g.definitions.modify index fun d => { d with references := d.references.push use }
    used := g.used.insert use.id index }

theorem refer_eq {index : Nat} (h : g.declared[declaring]? = some index) :
    g.refer declaring use = g.referAt index use := by
  rw [refer, h, referAt]

theorem refer_of_none (h : g.declared[declaring]? = none) : g.refer declaring use = g := by
  rw [refer, h]

theorem getElem?_referAt {index i : Nat} {d : Definition} :
    (g.referAt index use).definitions[i]? = some d ↔
      (index ≠ i ∧ g.definitions[i]? = some d) ∨
        ∃ d₀, index = i ∧ g.definitions[i]? = some d₀ ∧
          d = { d₀ with references := d₀.references.push use } := by
  rw [referAt, Array.getElem?_modify]
  by_cases hi : index = i
  · rw [if_pos hi, Option.map_eq_some_iff]
    simp only [hi, ne_eq, not_true, false_and, false_or, true_and, @eq_comm _ d]
  · simp [hi]

theorem occurrences_refer : (g.refer declaring use).occurrences.Subperm (g.occurrences ++ [use]) := by
  cases hd : g.declared[declaring]? with
  | none =>
    rw [refer_of_none hd]
    exact (List.sublist_append_left _ _).subperm
  | some index =>
    rw [refer_eq hd, occurrences, referAt, Array.toList_modify, occurrences]
    by_cases hi : index < g.definitions.toList.length
    · obtain ⟨front, d, back, hall, -, hmodify⟩ := List.exists_of_modify
        (fun d : Definition => { d with references := d.references.push use }) hi
      rw [hmodify, hall]
      refine List.Perm.subperm ?_
      simp only [List.flatMap_append, List.flatMap_cons, Definition.occurrences, Array.toList_push,
        List.append_assoc, List.cons_append]
      have hswap (rest : List Token) : ([use] ++ rest).Perm (rest ++ [use]) := List.perm_append_comm
      exact (((hswap _).append_left _).cons _).append_left _
    · rw [List.modify_eq_self (Nat.le_of_not_lt hi)]
      exact (List.sublist_append_left _ _).subperm

theorem Indexed.refer (h : g.Indexed)
    (hnew : ∀ d ∈ g.definitions, ∀ r ∈ d.references, r.id ≠ use.id) :
    (g.refer declaring use).Indexed := by
  cases hd : g.declared[declaring]? with
  | none => rwa [refer_of_none hd]
  | some index =>
    obtain ⟨d₀, hd₀, -⟩ := (h.declared _ _).mp hd
    rw [refer_eq hd]
    constructor
    · intro id i
      refine (h.declared id i).trans ?_
      simp only [getElem?_referAt]
      constructor
      · rintro ⟨d, hd, hdt⟩
        by_cases hi : index = i
        · exact ⟨_, .inr ⟨d, hi, hd, rfl⟩, hdt⟩
        · exact ⟨d, .inl ⟨hi, hd⟩, hdt⟩
      · rintro ⟨d, ⟨-, hd⟩ | ⟨d₁, -, hd, rfl⟩, hdt⟩
        · exact ⟨d, hd, hdt⟩
        · exact ⟨d₁, hd, hdt⟩
    · intro id i
      simp only [getElem?_referAt]
      rw [referAt, Std.TreeMap.getElem?_insert]
      by_cases hid : use.id = id
      · subst hid
        simp only [Nat.compare_eq_eq, if_true, Option.some.injEq]
        constructor
        · rintro rfl
          exact ⟨_, .inr ⟨d₀, rfl, hd₀, rfl⟩, use, by simp, rfl⟩
        · rintro ⟨d, ⟨-, hd⟩ | ⟨d₁, hi, -, rfl⟩, r, hr, hrid⟩
          · exact absurd hrid (hnew d (Array.mem_of_getElem? hd) r hr)
          · exact hi
      · rw [if_neg (by simpa using hid), h.used]
        constructor
        · rintro ⟨d, hd, r, hr, hrid⟩
          by_cases hi : index = i
          · exact ⟨_, .inr ⟨d, hi, hd, rfl⟩, r, Array.mem_push_of_mem _ hr, hrid⟩
          · exact ⟨d, .inl ⟨hi, hd⟩, r, hr, hrid⟩
        · rintro ⟨d, ⟨-, hd⟩ | ⟨d₁, -, hd, rfl⟩, r, hr, hrid⟩
          · exact ⟨d, hd, r, hr, hrid⟩
          · obtain hr | rfl := Array.mem_push.mp hr
            · exact ⟨d₁, hd, r, hr, hrid⟩
            · exact absurd hrid hid

/-! ## Looking a definition up -/

namespace Indexed

theorem definition (h : g.Indexed) (hd : d ∈ g.definitions) : g.definition d.token.id = some d := by
  obtain ⟨i, hi⟩ := Array.mem_iff_getElem?.mp hd
  have hindex := (h.declared d.token.id i).mpr ⟨d, hi, rfl⟩
  simp [SymbolGraph.definition, hindex, hi]

end Indexed

end SymbolGraph

/-! ## Steps of the resolver -/

namespace Context

/-- The symbols are indexed, a name that an open scope binds to a declaration is declared by it, and
uses are spelled like their declarations. -/
structure Coherent (c : Context) : Prop where
  indexed : c.symbols.Indexed
  known : ∀ scope ∈ c.scopes, ∀ name id, scope.get? name = some (.declared id) →
    ∃ d ∈ c.symbols.definitions, d.token.id = id ∧ d.token.lexeme = name
  spelled : ∀ d ∈ c.symbols.definitions, ∀ r ∈ d.references, r.lexeme = d.token.lexeme

variable {c c' : Context} {xs : List Lookup} {ds : List (Token × SymbolKind)} {us : List Token}

theorem bound_of_bind {name other : String} {binding bound : Binding} {scope : ScopeNames}
    (hscope : scope ∈ (c.bind name binding).scopes) (hbound : scope.get? other = some bound) :
    name = other ∧ bound = binding ∨ ∃ scope ∈ c.scopes, scope.get? other = some bound := by
  unfold Context.bind at hscope
  split at hscope
  · exact .inr ⟨scope, hscope, hbound⟩
  · rename_i inner outer hscopes
    obtain rfl | hscope := List.mem_cons.mp hscope
    · rw [Bindings.get?_insert] at hbound
      split at hbound
      · next hname => exact .inl ⟨hname, (Option.some.inj hbound).symm⟩
      · exact .inr ⟨inner, hscopes ▸ List.mem_cons_self, hbound⟩
    · exact .inr ⟨scope, hscopes ▸ List.mem_cons_of_mem _ hscope, hbound⟩

theorem coherent_start : Coherent .start where
  indexed :=
    ⟨fun id i => by simp [start, SymbolGraph.empty], fun id i => by simp [start, SymbolGraph.empty]⟩
  known := by simp [start]
  spelled := by simp [start, SymbolGraph.empty]

namespace Coherent

theorem ofScopes (h : c.Coherent) (hsymbols : c'.symbols = c.symbols)
    (hscopes : ∀ scope ∈ c'.scopes, ∀ name id, scope.get? name = some (.declared id) →
      ∃ scope ∈ c.scopes, scope.get? name = some (.declared id)) : c'.Coherent where
  indexed := hsymbols ▸ h.indexed
  known scope hscope name id hbound := by
    obtain ⟨scope, hscope, hbound⟩ := hscopes scope hscope name id hbound
    rw [hsymbols]
    exact h.known scope hscope name id hbound
  spelled := hsymbols ▸ h.spelled

theorem bind (h : c.Coherent) (name : String) {binding : Binding}
    (hb : ∀ id, binding ≠ .declared id) : (c.bind name binding).Coherent := by
  refine h.ofScopes (bind_symbols name binding) fun scope hscope other id hbound => ?_
  obtain ⟨-, heq⟩ | hold := bound_of_bind hscope hbound
  · exact absurd heq.symm (hb id)
  · exact hold

theorem define (h : c.Coherent) (name : Token) (kind : SymbolKind)
    (hnew : ∀ d ∈ c.symbols.definitions, d.token.id ≠ name.id) : (c.define name kind).Coherent := by
  by_cases hopen : c.scopes = []
  · rwa [define_of_nil hopen]
  have hdefinitions : (c.define name kind).symbols.definitions =
      c.symbols.definitions.push ⟨name, kind, #[]⟩ := by
    rw [define_symbols hopen]
    rfl
  constructor
  · rw [define_symbols hopen]
    exact h.indexed.define kind hnew
  · intro scope hscope other id hbound
    rw [hdefinitions]
    rw [define_eq_bind] at hscope
    obtain ⟨hname, heq⟩ | ⟨scope, hscope, hbound⟩ := bound_of_bind hscope hbound
    · cases heq
      exact ⟨⟨name, kind, #[]⟩, Array.mem_push_self, rfl, hname⟩
    · obtain ⟨d, hd, hid⟩ := h.known scope hscope other id hbound
      exact ⟨d, Array.mem_push_of_mem _ hd, hid⟩
  · intro d hd r hr
    rw [hdefinitions] at hd
    obtain hd | rfl := Array.mem_push.mp hd
    · exact h.spelled d hd r hr
    · simp at hr

theorem refer (h : c.Coherent) {use : Token} {declaring : TokenId}
    (hsymbols : c'.symbols = c.symbols.refer declaring use) (hscopes : c'.scopes = c.scopes)
    (hnew : ∀ d ∈ c.symbols.definitions, ∀ r ∈ d.references, r.id ≠ use.id)
    (hbound : ∃ scope ∈ c.scopes, scope.get? use.lexeme = some (.declared declaring)) :
    c'.Coherent := by
  obtain ⟨scope, hscope, hbound⟩ := hbound
  obtain ⟨d₀, hd₀, hid₀, hname₀⟩ := h.known scope hscope use.lexeme declaring hbound
  obtain ⟨index, hindex⟩ := Array.mem_iff_getElem?.mp hd₀
  have hrefer : c.symbols.refer declaring use = c.symbols.referAt index use :=
    SymbolGraph.refer_eq ((h.indexed.declared declaring index).mpr ⟨d₀, hindex, hid₀⟩)
  constructor
  · exact hsymbols ▸ h.indexed.refer hnew
  · intro scope hscope name id hbound
    obtain ⟨d, hd, hdt⟩ := h.known scope (hscopes ▸ hscope) name id hbound
    obtain ⟨i, hi⟩ := Array.mem_iff_getElem?.mp hd
    rw [hsymbols, hrefer]
    by_cases hat : index = i
    · exact ⟨_, Array.mem_of_getElem? (SymbolGraph.getElem?_referAt.mpr (.inr ⟨d, hat, hi, rfl⟩)), hdt⟩
    · exact ⟨d, Array.mem_of_getElem? (SymbolGraph.getElem?_referAt.mpr (.inl ⟨hat, hi⟩)), hdt⟩
  · intro d hd r hr
    rw [hsymbols, hrefer] at hd
    obtain ⟨i, hi⟩ := Array.mem_iff_getElem?.mp hd
    obtain ⟨-, hi⟩ | ⟨d₁, rfl, hd₁, rfl⟩ := SymbolGraph.getElem?_referAt.mp hi
    · exact h.spelled d (Array.mem_of_getElem? hi) r hr
    · obtain rfl : d₀ = d₁ := Option.some.inj (hindex.symm.trans hd₁)
      obtain hr | rfl := Array.mem_push.mp hr
      · exact h.spelled d₀ hd₀ r hr
      · exact hname₀.symm

end Coherent

theorem exists_of_find? {name : String} {scopes : List ScopeNames} {distance : Nat} {binding : Binding}
    (h : find? name scopes = some (distance, binding)) :
    ∃ scope ∈ scopes, scope.get? name = some binding := by
  induction scopes generalizing distance with
  | nil => cases h
  | cons scope outer ih =>
    rw [find?] at h
    cases hg : scope.get? name with
    | some found =>
      rw [hg] at h
      cases h
      exact ⟨scope, List.mem_cons_self, hg⟩
    | none =>
      rw [hg] at h
      obtain ⟨⟨d, b⟩, hfound, heq⟩ := Option.map_eq_some_iff.mp h
      cases heq
      obtain ⟨inner, hmem, hbound⟩ := ih hfound
      exact ⟨inner, List.mem_cons_of_mem _ hmem, hbound⟩

/-- **In the symbols every word occurs at most once**: steps add the words that they pass. -/
theorem Steps.occurrences (h : Steps xs ds us c c') :
    c'.symbols.occurrences.Subperm (c.symbols.occurrences ++ us) := by
  induction h with
  | aside _ hsymbols => rw [hsymbols, List.append_nil]
  | openScope | closeScope =>
    rw [List.append_nil]
    exact .refl _
  | implicit name | uninitialized name => rw [bind_symbols, List.append_nil]
  | @define c name kind =>
    obtain hsame | hnew := c.symbols_define name kind
    · rw [hsame]
      exact (List.sublist_append_left _ _).subperm
    · rw [hnew, SymbolGraph.occurrences_define]
  | @use c occurrence =>
    obtain hsame | ⟨_, declaring, -, hrefer⟩ := c.symbols_use occurrence
    · rw [hsame]
      exact (List.sublist_append_left _ _).subperm
    · rw [hrefer]
      exact SymbolGraph.occurrences_refer
  | append _ _ ih₁ ih₂ =>
    rw [← List.append_assoc]
    exact ih₂.trans (List.Subperm.append ih₁ (.refl _))
  | swap _ _ ih₁ ih₂ =>
    refine (ih₂.trans (List.Subperm.append ih₁ (.refl _))).trans ?_
    rw [List.append_assoc]
    exact (List.perm_append_comm.append_left _).subperm
  | widen _ hsub ih => exact ih.trans (.append (.refl _) hsub.subperm)

theorem nodup_of_subperm {ts us : List Token} (h : ts.Subperm us) (hd : (us.map Token.id).Nodup) :
    (ts.map Token.id).Nodup := by
  obtain ⟨vs, hperm, hsub⟩ := h
  exact (hperm.map Token.id).nodup_iff.mp ((hsub.map Token.id).nodup hd)

/-- **Steps keep the symbols coherent**, as long as they pass no word twice. -/
theorem Steps.coherent (h : Steps xs ds us c c')
    (hd : ((c.symbols.occurrences ++ us).map Token.id).Nodup) (hc : c.Coherent) : c'.Coherent := by
  induction h with
  | aside hscopes hsymbols =>
    exact hc.ofScopes hsymbols fun scope hscope _ _ hbound => ⟨scope, hscopes ▸ hscope, hbound⟩
  | openScope =>
    refine hc.ofScopes rfl fun scope hscope _ _ hbound => ?_
    obtain rfl | hscope := List.mem_cons.mp hscope
    · cases hbound
    · exact ⟨scope, hscope, hbound⟩
  | closeScope =>
    exact hc.ofScopes rfl fun scope hscope _ _ hbound => ⟨scope, List.mem_of_mem_tail hscope, hbound⟩
  | implicit name | uninitialized name => exact hc.bind name nofun
  | @define c name kind =>
    refine hc.define name kind fun d hmem heq => ?_
    rw [List.map_append, List.nodup_append] at hd
    have hocc : d.token ∈ c.symbols.occurrences :=
      SymbolGraph.mem_occurrences.mpr ⟨d, hmem, List.mem_cons_self⟩
    exact hd.2.2 _ (List.mem_map_of_mem hocc) _ List.mem_cons_self heq
  | @use c occurrence =>
    obtain hsame | ⟨_, declaring, hfound, hrefer⟩ := c.symbols_use occurrence
    · exact hc.ofScopes hsame fun scope hscope _ _ hbound =>
        ⟨scope, (alike_use occurrence).scopes ▸ hscope, hbound⟩
    · refine hc.refer hrefer ((alike_use occurrence).scopes) (fun d hmem r hr heq => ?_)
        (exists_of_find? hfound)
      rw [List.map_append, List.nodup_append] at hd
      have hocc : r ∈ c.symbols.occurrences := SymbolGraph.mem_occurrences.mpr
        ⟨d, hmem, Definition.mem_occurrences.mpr (.inr hr)⟩
      exact hd.2.2 _ (List.mem_map_of_mem hocc) _ List.mem_cons_self heq
  | append h₁ _ ih₁ ih₂ =>
    rw [← List.append_assoc] at hd
    refine ih₂ (nodup_of_subperm (.append h₁.occurrences (.refl _)) hd) (ih₁ ?_ hc)
    exact nodup_of_subperm (List.sublist_append_left _ _).subperm hd
  | swap h₁ _ ih₁ ih₂ =>
    have hd := nodup_of_subperm (List.perm_append_comm.append_left _).subperm hd
    rw [← List.append_assoc] at hd
    refine ih₂ (nodup_of_subperm (.append h₁.occurrences (.refl _)) hd) (ih₁ ?_ hc)
    exact nodup_of_subperm (List.sublist_append_left _ _).subperm hd
  | widen _ hsub ih => exact ih (nodup_of_subperm (.append (.refl _) hsub.subperm) hd) hc

end Context

/-! ## Programs -/

section

variable (source : String) (firstId : ExprId)

/-- **In the symbols of a text every word of its tree occurs at most once.** -/
theorem occurrences_of_parse :
    (resolve (parse source firstId).tree).symbols.occurrences.Subperm
      (Stmt.wordsAll (parse source firstId).tree) :=
  (Stmt.stepsAll .start (parse source firstId).tree).occurrences

theorem nodup_words_parse : ((Stmt.wordsAll (parse source firstId).tree).map Token.id).Nodup :=
  List.pairwise_map.mpr ((pairwise_words_parse source firstId).imp Nat.ne_of_lt)

/-- **The symbols of a text are coherent.** -/
theorem coherent_of_parse : (Stmt.resolveAll .start (parse source firstId).tree).Coherent :=
  (Stmt.stepsAll .start _).coherent (nodup_words_parse source firstId) Context.coherent_start

end

end Lox
