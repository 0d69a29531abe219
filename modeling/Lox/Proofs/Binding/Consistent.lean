import Mathlib.Data.List.Nodup
import Lox.Proofs.Binding.Restored
import Lox.Proofs.Token.Tiling

/-!
# Definitions and references in both directions

The symbols of a program can be read from the declarations to the uses and back, and both ways agree.
The resolver makes it so step by step: what an open scope binds to a declaration is a definition, and
a use is added to the definition that its name is bound to.

* `SymbolGraph.Forward`: every use has a larger number than its declaration, `Context.Steps.forward`;
* `Context.Entered`: what the open scopes bind is defined, `Context.Steps.entered`;
* `Context.Splits`: a use is one of the steps of a walk, `Context.Steps.splits`;
* `SymbolGraph.Consistent`: definitions, references, uses and unused definitions agree;
* **`symbols_consistent`**: so they do in every program that is read from a text, and no use is lost.
-/

namespace Lox

namespace SymbolGraph

variable {g : SymbolGraph} {t use : Token} {declaring id : TokenId}

/-! ## Uses behind declarations -/

/-- Every use has a larger number than the declaration. -/
def Forward (g : SymbolGraph) : Prop :=
  ∀ d ∈ g.definitions, ∀ r ∈ d.references, d.token.id < r.id

theorem Forward.define (h : g.Forward) (kind : SymbolKind) : (g.define t kind).Forward := by
  intro d hd r hr
  obtain hd | rfl := Array.mem_push.mp hd
  · exact h d hd r hr
  · simp at hr

theorem Forward.refer (h : g.Forward) (hbehind : ∀ d ∈ g.definitions, d.token.id < use.id) :
    (g.refer declaring use).Forward := by
  cases hdeclared : g.declared[declaring]? with
  | none => rwa [refer_of_none hdeclared]
  | some index =>
    rw [refer_eq hdeclared]
    intro d hd r hr
    obtain ⟨i, hi⟩ := Array.mem_iff_getElem?.mp hd
    obtain ⟨-, hold⟩ | ⟨d₀, -, hold, rfl⟩ := getElem?_referAt.mp hi
    · exact h d (Array.mem_of_getElem? hold) r hr
    · obtain hr | rfl := Array.mem_push.mp hr
      · exact h d₀ (Array.mem_of_getElem? hold) r hr
      · exact hbehind d₀ (Array.mem_of_getElem? hold)

/-! ## Definitions that stay -/

theorem definition_eq_some_iff {d : Definition} :
    g.definition id = some d ↔ ∃ i, g.declared[id]? = some i ∧ g.definitions[i]? = some d :=
  Option.bind_eq_some_iff

theorem definitionOf_eq_some_iff {d : Definition} :
    g.definitionOf id = some d ↔ ∃ i, g.used[id]? = some i ∧ g.definitions[i]? = some d :=
  Option.bind_eq_some_iff

theorem definition_define (kind : SymbolKind) :
    (g.define t kind).definition t.id = some ⟨t, kind, #[]⟩ :=
  definition_eq_some_iff.mpr
    ⟨g.definitions.size, by simp [define], (getElem?_define kind).mpr (.inl ⟨rfl, rfl⟩)⟩

theorem exists_definition_define {d : Definition} (kind : SymbolKind) (h : g.definition id = some d) :
    ∃ d', (g.define t kind).definition id = some d' := by
  by_cases hid : t.id = id
  · exact ⟨_, hid ▸ definition_define kind⟩
  · obtain ⟨i, hi, hd⟩ := definition_eq_some_iff.mp h
    refine ⟨d, definition_eq_some_iff.mpr ⟨i, ?_, (getElem?_define kind).mpr (.inr hd)⟩⟩
    simpa [define, Std.TreeMap.getElem?_insert, hid] using hi

theorem exists_definition_refer {d : Definition} (h : g.definition id = some d) :
    ∃ d', (g.refer declaring use).definition id = some d' := by
  obtain ⟨i, hi, hd⟩ := definition_eq_some_iff.mp h
  obtain ⟨d', hd', -⟩ := extends_refer declaring use i d hd
  refine ⟨d', definition_eq_some_iff.mpr ⟨i, ?_, hd'⟩⟩
  unfold refer
  split <;> exact hi

end SymbolGraph

namespace Context

variable {c c₁ c' : Context} {xs : List Lookup} {ds : List (Token × SymbolKind)} {us vs : List Token}
  {x : Lookup}

/-! ## Steps in the order of the text -/

theorem Steps.mem_words (h : Steps xs ds us c c') : ∀ p ∈ ds, p.1 ∈ us := by
  induction h with
  | aside | openScope | closeScope | implicit | uninitialized | use => nofun
  | define name kind =>
    intro p hp
    obtain rfl := List.mem_singleton.mp hp
    exact List.mem_cons_self
  | append _ _ ih₁ ih₂ =>
    intro p hp
    exact List.mem_append.mpr ((List.mem_append.mp hp).imp (ih₁ p) (ih₂ p))
  | swap _ _ _ ih₂ => exact fun p hp => List.mem_append_left _ (ih₂ p hp)
  | widen _ hsub ih => exact fun p hp => hsub.subset (ih p hp)

/-- **Uses stay behind their declarations**, as long as the words are passed in the order of the text
and stand behind what was declared before. -/
theorem Steps.forward (h : Steps xs ds us c c') (hrising : us.Pairwise fun t u => t.id < u.id)
    (hbefore : ∀ p ∈ c.symbols.declarations, ∀ u ∈ us, p.1.id < u.id) (hc : c.symbols.Forward) :
    c'.symbols.Forward := by
  induction h with
  | aside _ hsymbols => rwa [hsymbols]
  | openScope | closeScope => exact hc
  | implicit name | uninitialized name => rwa [bind_symbols]
  | @define c name kind =>
    obtain hsame | hnew := c.symbols_define name kind
    · rwa [hsame]
    · rw [hnew]
      exact hc.define kind
  | @use c occurrence =>
    obtain hsame | ⟨_, declaring, -, hrefer⟩ := c.symbols_use occurrence
    · rwa [hsame]
    · rw [hrefer]
      refine hc.refer fun d hd => hbefore (d.token, d.kind) ?_ _ List.mem_cons_self
      exact List.mem_map.mpr ⟨d, Array.mem_toList_iff.mpr hd, rfl⟩
  | append h₁ _ ih₁ ih₂ =>
    obtain ⟨hus, hvs, hcross⟩ := List.pairwise_append.mp hrising
    refine ih₂ hvs (fun p hp v hv => ?_)
      (ih₁ hus (fun p hp u hu => hbefore p hp u (List.mem_append_left _ hu)) hc)
    obtain ⟨new, hsub, heq⟩ := h₁.declared
    rw [heq] at hp
    obtain hp | hp := List.mem_append.mp hp
    · exact hbefore p hp v (List.mem_append_right _ hv)
    · exact hcross p.1 (h₁.mem_words p (hsub.subset hp)) v hv
  | swap h₁ _ ih₁ ih₂ =>
    -- the first part declares nothing that the second one, in front of it in the text, could use
    obtain ⟨hvs, hus, -⟩ := List.pairwise_append.mp hrising
    refine ih₂ hvs (fun p hp v hv => ?_)
      (ih₁ hus (fun p hp u hu => hbefore p hp u (List.mem_append_right _ hu)) hc)
    obtain ⟨new, hsub, heq⟩ := h₁.declared
    rw [heq, List.sublist_nil.mp hsub, List.append_nil] at hp
    exact hbefore p hp v (List.mem_append_left _ hv)
  | widen _ hsub ih =>
    exact ih (hrising.sublist hsub) (fun p hp u hu => hbefore p hp u (hsub.subset hu)) hc

/-! ## Bindings have entries -/

/-- What an open scope binds to a declaration is found among the definitions. -/
def Entered (c : Context) : Prop :=
  ∀ scope ∈ c.scopes, ∀ name id, scope.get? name = some (.declared id) →
    ∃ d, c.symbols.definition id = some d

theorem entered_start : Entered .start := by simp [Entered, start]

/-- **Steps keep the bindings entered.** -/
theorem Steps.entered (h : Steps xs ds us c c') (hc : c.Entered) : c'.Entered := by
  induction h with
  | aside hscopes hsymbols =>
    rw [Entered, hscopes, hsymbols]
    exact hc
  | openScope =>
    intro scope hscope name id hbound
    obtain rfl | hscope := List.mem_cons.mp hscope
    · cases hbound
    · exact hc scope hscope name id hbound
  | closeScope => exact fun scope hscope => hc scope (List.mem_of_mem_tail hscope)
  | implicit name | uninitialized name =>
    intro scope hscope other id hbound
    rw [bind_symbols]
    obtain ⟨-, heq⟩ | ⟨scope, hscope, hbound⟩ := bound_of_bind hscope hbound
    · cases heq
    · exact hc scope hscope other id hbound
  | @define c name kind =>
    by_cases hopen : c.scopes = []
    · rwa [define_of_nil hopen]
    intro scope hscope other id hbound
    rw [define_symbols hopen]
    rw [define_eq_bind] at hscope
    obtain ⟨-, heq⟩ | ⟨scope, hscope, hbound⟩ := bound_of_bind hscope hbound
    · cases heq
      exact ⟨_, SymbolGraph.definition_define kind⟩
    · obtain ⟨d, hd⟩ := hc scope hscope other id hbound
      exact SymbolGraph.exists_definition_define kind hd
  | @use c occurrence =>
    intro scope hscope name id hbound
    obtain ⟨d, hd⟩ := hc scope ((alike_use occurrence).scopes ▸ hscope) name id hbound
    obtain hsame | ⟨_, declaring, -, hrefer⟩ := c.symbols_use occurrence
    · exact ⟨d, hsame ▸ hd⟩
    · exact hrefer ▸ SymbolGraph.exists_definition_refer hd
  | append _ _ ih₁ ih₂ | swap _ _ ih₁ ih₂ => exact ih₂ (ih₁ hc)
  | widen _ _ ih => exact ih hc

/-! ## The uses among the steps -/

/-- **Each new distance is the distance of a use** that the steps make. -/
theorem Steps.recorded (h : Steps xs ds us c c') (id : ExprId) :
    c'.distances[id]? = c.distances[id]? ∨ ∃ x ∈ xs, x.occurrence.id = id := by
  induction h with
  | aside _ _ hdistances => exact .inl (by rw [hdistances])
  | openScope | closeScope => exact .inl rfl
  | implicit name | uninitialized name => exact .inl (by rw [bind_distances])
  | define name kind => exact .inl (by rw [define_eq_bind, bind_distances])
  | @use c occurrence =>
    by_cases hid : occurrence.id = id
    · exact .inr ⟨_, List.mem_cons_self, hid⟩
    · exact .inl ((grows_use occurrence).distances id fun h => hid (List.mem_singleton.mp h).symm)
  | append _ _ ih₁ ih₂ | swap _ _ ih₁ ih₂ =>
    obtain hsame₂ | ⟨x, hx, hid⟩ := ih₂
    · obtain hsame₁ | ⟨x, hx, hid⟩ := ih₁
      · exact .inl (hsame₂.trans hsame₁)
      · exact .inr ⟨x, List.mem_append_left _ hx, hid⟩
    · exact .inr ⟨x, List.mem_append_right _ hx, hid⟩
  | widen _ _ ih => exact ih

/-- The use is made between two rows of steps. -/
def Splits (us : List Token) (x : Lookup) (c c' : Context) : Prop :=
  ∃ xs ds vs ys es ws, Steps xs ds vs c x.context ∧
    Steps ys es ws (x.context.use x.occurrence) c' ∧ (vs ++ x.occurrence.name :: ws).Subperm us

namespace Splits

theorem widen (h : Splits us x c c') (hsub : us.Subperm vs) : Splits vs x c c' := by
  obtain ⟨_, _, _, _, _, _, hfront, hback, hwords⟩ := h
  exact ⟨_, _, _, _, _, _, hfront, hback, hwords.trans hsub⟩

theorem append (h : Splits us x c c₁) (hsteps : Steps xs ds vs c₁ c') : Splits (us ++ vs) x c c' := by
  obtain ⟨_, _, _, _, _, _, hfront, hback, hwords⟩ := h
  refine ⟨_, _, _, _, _, _, hfront, hback.append hsteps, ?_⟩
  rw [← List.cons_append, ← List.append_assoc]
  exact hwords.append (.refl _)

theorem behind (h : Splits vs x c₁ c') (hsteps : Steps xs ds us c c₁) : Splits (us ++ vs) x c c' := by
  obtain ⟨_, _, _, _, _, _, hfront, hback, hwords⟩ := h
  refine ⟨_, _, _, _, _, _, hsteps.append hfront, hback, ?_⟩
  rw [List.append_assoc]
  exact List.Subperm.append (.refl _) hwords

theorem mem_words (h : Splits us x c c') : x.occurrence.name ∈ us := by
  obtain ⟨_, _, vs, _, _, ws, -, -, hsub⟩ := h
  exact hsub.subset (List.mem_append_right vs List.mem_cons_self)

end Splits

/-- **Steps make their uses.** -/
theorem Steps.splits (h : Steps xs ds us c c') : ∀ x ∈ xs, Splits us x c c' := by
  induction h with
  | aside | openScope | closeScope | implicit | uninitialized | define =>
    exact fun _ hx => absurd hx List.not_mem_nil
  | use occurrence =>
    intro x hx
    obtain rfl := List.mem_singleton.mp hx
    exact ⟨[], [], [], [], [], [], .refl, .refl, .refl _⟩
  | append h₁ h₂ ih₁ ih₂ =>
    intro x hx
    exact (List.mem_append.mp hx).elim (fun hx => (ih₁ x hx).append h₂) fun hx => (ih₂ x hx).behind h₁
  | swap h₁ h₂ ih₁ ih₂ =>
    intro x hx
    refine Splits.widen ?_ List.perm_append_comm.subperm
    exact (List.mem_append.mp hx).elim (fun hx => (ih₁ x hx).append h₂) fun hx => (ih₂ x hx).behind h₁
  | widen _ hsub ih => exact fun x hx => (ih x hx).widen hsub.subperm

theorem Steps.entered_lookups (h : Steps xs ds us c c') (hc : c.Entered) :
    ∀ x ∈ xs, x.context.Entered := by
  intro x hx
  obtain ⟨_, _, _, _, _, _, hfront, -, -⟩ := h.splits x hx
  exact hfront.entered hc

/-- **No use is lost**: a use of a name that is bound to a declaration is linked to it in the end. -/
theorem Splits.linked (h : Splits us x c c') (hc : c.Coherent)
    (hids : ((c.symbols.occurrences ++ us).map Token.id).Nodup) {distance : Nat} {id : TokenId}
    (hfound : find? x.occurrence.name.lexeme x.context.scopes = some (distance, .declared id)) :
    ∃ t, t.id = id ∧ c'.symbols.Links x.occurrence.name.id t := by
  obtain ⟨xs, ds, vs, ys, es, ws, hfront, hback, hsub⟩ := h
  have hids := nodup_of_subperm (.append (.refl _) hsub) hids
  have hcoherent := hfront.coherent
    (nodup_of_subperm (.append (.refl _) (List.sublist_append_left _ _).subperm) hids) hc
  -- the binding names a definition, so the use becomes a reference of it
  obtain ⟨scope, hscope, hbound⟩ := exists_of_find? hfound
  obtain ⟨d, hd, rfl, -⟩ := hcoherent.known scope hscope _ _ hbound
  obtain ⟨i, hi⟩ := Array.mem_iff_getElem?.mp hd
  have hknows : x.context.symbols.Knows d.token :=
    ⟨i, (hcoherent.indexed.declared _ i).mpr ⟨d, hi, rfl⟩, by
      rw [SymbolGraph.getElem?_tokens, hi, Option.map_some]⟩
  have hlinks : (x.context.use x.occurrence).symbols.Links x.occurrence.name.id d.token := by
    unfold use
    rw [hfound]
    exact SymbolGraph.links_refer hknows
  -- and no word behind it is the same, so it stays one
  have hnew : x.occurrence.name.id ∉ ws.map Token.id := by
    rw [← List.append_assoc, List.map_append, List.map_cons] at hids
    exact (List.nodup_cons.mp (List.nodup_append.mp hids).2.1).1
  exact ⟨d.token, rfl, hlinks.later (hback.kept.used _ hnew) hback.kept.tokens⟩

end Context

/-! ## Both directions -/

namespace SymbolGraph

/-- The definitions, the references of each one and the two look-ups of a text with the tokens `ts`
agree. -/
structure Consistent (ts : List Token) (g : SymbolGraph) : Prop where
  /-- The indices that are kept for the look-ups are places of definitions. -/
  inside : ∀ (id : TokenId) (i : Nat), g.declared[id]? = some i ∨ g.used[id]? = some i →
    i < g.definitions.size
  /-- No two definitions have the same declaring token. -/
  distinct : (g.tokens.map Token.id).Nodup
  /-- The definition with a number is the one whose declaring token has it. -/
  definition : ∀ id d, g.definition id = some d ↔ d ∈ g.definitions ∧ d.token.id = id
  /-- A token is a reference of a definition if it is found to use it, and only then. -/
  definitionOf : ∀ r ∈ ts, ∀ d, g.definitionOf r.id = some d ↔ d ∈ g.definitions ∧ r ∈ d.references
  /-- The references are tokens of the text behind the declaration, spelled like it, and no token is
  both a reference and a declaration. -/
  references : ∀ d ∈ g.definitions, d.token ∈ ts ∧ ∀ r ∈ d.references, r ∈ ts ∧
    r.lexeme = d.token.lexeme ∧ g.definition r.id = none ∧ d.token.id < r.id ∧
      d.token.position.stop ≤ r.position.start
  /-- A reference stands once among those of its definition. -/
  once : ∀ d ∈ g.definitions, (d.references.toList.map Token.id).Nodup
  /-- It is a reference of no other definition. -/
  alone : ∀ (i j : Nat) (d e : Definition), g.definitions[i]? = some d → g.definitions[j]? = some e →
    ∀ r ∈ d.references, r ∈ e.references → i = j
  /-- The unused definitions are those that no token is found to use, in the order of the others. -/
  unused : ∀ d, d ∈ g.unused ↔ d ∈ g.definitions ∧ ∀ id, g.definitionOf id ≠ some d
  unusedOrder : g.unused.Sublist g.definitions.toList

variable {g : SymbolGraph} {i j : Nat} {d e : Definition} {t u : Token}

theorem mem_of_definitionOf {id : TokenId} (h : g.definitionOf id = some d) : d ∈ g.definitions := by
  obtain ⟨i, -, hi⟩ := definitionOf_eq_some_iff.mp h
  exact Array.mem_of_getElem? hi

namespace Indexed

theorem definition_iff (h : g.Indexed) {id : TokenId} :
    g.definition id = some d ↔ d ∈ g.definitions ∧ d.token.id = id := by
  constructor
  · intro hd
    obtain ⟨i, hi, hat⟩ := definition_eq_some_iff.mp hd
    obtain ⟨d', hd', hid⟩ := (h.declared id i).mp hi
    obtain rfl := Option.some.inj (hat.symm.trans hd')
    exact ⟨Array.mem_of_getElem? hat, hid⟩
  · rintro ⟨hd, rfl⟩
    exact h.definition hd

/-- What a token is found to use has a reference with its number. -/
theorem exists_reference (h : g.Indexed) {id : TokenId} (hd : g.definitionOf id = some d) :
    ∃ r ∈ d.references, r.id = id := by
  obtain ⟨i, hi, hat⟩ := definitionOf_eq_some_iff.mp hd
  obtain ⟨d', hd', hr⟩ := (h.used id i).mp hi
  obtain rfl := Option.some.inj (hat.symm.trans hd')
  exact hr

theorem definitionOf_reference (h : g.Indexed) (hd : d ∈ g.definitions) (ht : t ∈ d.references) :
    g.definitionOf t.id = some d := by
  obtain ⟨i, hi⟩ := Array.mem_iff_getElem?.mp hd
  exact definitionOf_eq_some_iff.mpr ⟨i, (h.used t.id i).mpr ⟨d, hi, t, ht, rfl⟩, hi⟩

theorem lt_size (h : g.Indexed) {id : TokenId}
    (hi : g.declared[id]? = some i ∨ g.used[id]? = some i) : i < g.definitions.size := by
  obtain ⟨d, hd, -⟩ | ⟨d, hd, -⟩ := hi.imp (h.declared id i).mp (h.used id i).mp
  all_goals exact (Array.getElem?_eq_some_iff.mp hd).1

/-- **The unused definitions are those that nothing is found to use.** -/
theorem mem_unused (h : g.Indexed) :
    d ∈ g.unused ↔ d ∈ g.definitions ∧ ∀ id, g.definitionOf id ≠ some d := by
  rw [unused, List.mem_filter, Array.mem_toList_iff, Array.isEmpty_iff]
  refine and_congr_right fun hd => ⟨fun hempty id hid => ?_, fun hnone => ?_⟩
  · obtain ⟨r, hr, -⟩ := h.exists_reference hid
    rw [hempty] at hr
    exact Array.not_mem_empty r hr
  · refine Array.eq_empty_iff_forall_not_mem.mpr fun r hr => ?_
    exact hnone r.id (h.definitionOf_reference hd hr)

end Indexed

section

variable (hids : (g.occurrences.map Token.id).Nodup)
include hids

theorem pairwise_occurrences_of_nodup :
    (∀ d ∈ g.definitions.toList, d.occurrences.Pairwise fun t u => t.id ≠ u.id) ∧
      g.definitions.toList.Pairwise fun d e => ∀ t ∈ d.occurrences, ∀ u ∈ e.occurrences, t.id ≠ u.id :=
  List.pairwise_flatMap.mp (List.pairwise_map.mp hids)

theorem eq_of_id (hd : g.definitions[i]? = some d) (he : g.definitions[j]? = some e)
    (ht : t ∈ d.occurrences) (hu : u ∈ e.occurrences) (hid : t.id = u.id) : i = j := by
  have hapart := (pairwise_occurrences_of_nodup hids).2
  rw [List.pairwise_iff_getElem] at hapart
  rw [← Array.getElem?_toList] at hd he
  obtain ⟨hi, rfl⟩ := List.getElem?_eq_some_iff.mp hd
  obtain ⟨hj, rfl⟩ := List.getElem?_eq_some_iff.mp he
  obtain hlt | heq | hgt := Nat.lt_trichotomy i j
  · exact absurd hid (hapart i j hi hj hlt t ht u hu)
  · exact heq
  · exact absurd hid.symm (hapart j i hj hi hgt u hu t ht)

theorem nodup_tokens : (g.tokens.map Token.id).Nodup := by
  refine List.pairwise_map.mpr (List.pairwise_map.mpr ?_)
  exact (pairwise_occurrences_of_nodup hids).2.imp fun hapart =>
    hapart _ List.mem_cons_self _ List.mem_cons_self

theorem nodup_occurrences (hd : d ∈ g.definitions) : (d.occurrences.map Token.id).Nodup :=
  List.pairwise_map.mpr ((pairwise_occurrences_of_nodup hids).1 d (Array.mem_toList_iff.mpr hd))

theorem definition_reference (h : g.Indexed) (hd : d ∈ g.definitions) (ht : t ∈ d.references) :
    g.definition t.id = none := by
  refine Option.eq_none_iff_forall_ne_some.mpr fun e he => ?_
  obtain ⟨he, hid⟩ := h.definition_iff.mp he
  obtain ⟨i, hi⟩ := Array.mem_iff_getElem?.mp hd
  obtain ⟨j, hj⟩ := Array.mem_iff_getElem?.mp he
  obtain rfl := eq_of_id hids hi hj (Definition.mem_occurrences.mpr (.inr ht)) List.mem_cons_self
    hid.symm
  obtain rfl := Option.some.inj (hi.symm.trans hj)
  refine (List.nodup_cons.mp (nodup_occurrences hids hd)).1 ?_
  exact List.mem_map.mpr ⟨t, Array.mem_toList_iff.mpr ht, hid.symm⟩

end

end SymbolGraph

/-! ## Programs -/

/-- If the name that is used is bound to a declaration, the use is a reference of what it declares. -/
def Lookup.Linked (x : Lookup) (g : SymbolGraph) : Prop :=
  ∀ distance id,
    Context.find? x.occurrence.name.lexeme x.context.scopes = some (distance, .declared id) →
      ∃ d, g.definition id = some d ∧ g.definitionOf x.occurrence.name.id = some d ∧
        x.occurrence.name ∈ d.references

section

variable (source : String) (firstId : ExprId)

theorem mem_tokens_of_word {t : Token} (h : t ∈ Stmt.wordsAll (parse source firstId).tree) :
    t ∈ tokens source :=
  ((Stmt.sublist_placesAll _).trans (sublist_places_parse source firstId)).subset h

theorem forward_of_parse : (resolve (parse source firstId).tree).symbols.Forward :=
  (Stmt.stepsAll .start _).forward (pairwise_words_parse source firstId)
    (by simp [SymbolGraph.declarations, Context.start, SymbolGraph.empty])
    (by simp [SymbolGraph.Forward, Context.start, SymbolGraph.empty])

/-- Of two tokens of a text, the one with the smaller number ends in front of the other one. -/
theorem stop_le_start {t u : Token} (ht : t ∈ tokens source) (hu : u ∈ tokens source)
    (hlt : t.id < u.id) : t.position.stop ≤ u.position.start := by
  have hrising := List.pairwise_iff_getElem.mp (rising_tokens source)
  obtain ⟨i, hi, rfl⟩ := List.mem_iff_getElem.mp ht
  obtain ⟨j, hj, rfl⟩ := List.mem_iff_getElem.mp hu
  obtain hij | rfl | hji := Nat.lt_trichotomy i j
  · exact List.pairwise_iff_getElem.mp (ordered_tokens source) i j hi hj hij
  · exact absurd hlt (Nat.lt_irrefl _)
  · exact absurd hlt (Nat.lt_asymm (hrising j i hj hi hji))

theorem eq_of_id_tokens {t u : Token} (ht : t ∈ tokens source) (hu : u ∈ tokens source)
    (hid : t.id = u.id) : t = u :=
  List.inj_on_of_nodup_map (List.pairwise_map.mpr ((rising_tokens source).imp Nat.ne_of_lt)) ht hu hid

theorem consistent_of_parse :
    (resolve (parse source firstId).tree).symbols.Consistent (tokens source) := by
  have hids := Context.nodup_of_subperm (occurrences_of_parse source firstId)
    (nodup_words_parse source firstId)
  have hcoherent := coherent_of_parse source firstId
  have hindexed : (resolve (parse source firstId).tree).symbols.Indexed := hcoherent.indexed
  have htokens {d : Definition} {t : Token}
      (hd : d ∈ (resolve (parse source firstId).tree).symbols.definitions)
      (ht : t = d.token ∨ t ∈ d.references) : t ∈ tokens source :=
    mem_tokens_of_word source firstId ((occurrences_of_parse source firstId).subset
      (SymbolGraph.mem_occurrences.mpr ⟨d, hd, Definition.mem_occurrences.mpr ht⟩))
  constructor
  · exact fun _ _ => hindexed.lt_size
  · exact SymbolGraph.nodup_tokens hids
  · exact fun _ _ => hindexed.definition_iff
  · refine fun r hr d => ⟨fun hd => ?_, fun ⟨hd, hmem⟩ => hindexed.definitionOf_reference hd hmem⟩
    have hmem := SymbolGraph.mem_of_definitionOf hd
    obtain ⟨r', hr', hid⟩ := hindexed.exists_reference hd
    obtain rfl := eq_of_id_tokens source (htokens hmem (.inr hr')) hr hid
    exact ⟨hmem, hr'⟩
  · refine fun d hd => ⟨htokens hd (.inl rfl), fun r hr => ?_⟩
    have hlt := forward_of_parse source firstId d hd r hr
    exact ⟨htokens hd (.inr hr), hcoherent.spelled d hd r hr,
      SymbolGraph.definition_reference hids hindexed hd hr, hlt,
      stop_le_start source (htokens hd (.inl rfl)) (htokens hd (.inr hr)) hlt⟩
  · exact fun d hd => (List.nodup_cons.mp (SymbolGraph.nodup_occurrences hids hd)).2
  · intro i j d e hi hj r hr hr'
    exact SymbolGraph.eq_of_id hids hi hj (Definition.mem_occurrences.mpr (.inr hr))
      (Definition.mem_occurrences.mpr (.inr hr')) rfl
  · exact fun _ => hindexed.mem_unused
  · exact List.filter_sublist

/-- **The symbols of a program are consistent in both directions, and no use is lost.** Whatever
has a distance was one of the uses, and a use whose name is bound to a declaration is in the end a
reference of what this token declares. -/
theorem symbols_consistent :
    (resolve (parse source firstId).tree).symbols.Consistent (tokens source) ∧
    (Context.start.Entered ∧ ∀ (c : Context), c.Entered → ∀ s : Stmt, (s.resolve c).Entered ∧
      ∀ x ∈ s.lookups c, x.context.Entered) ∧
    (∀ id distance, (resolve (parse source firstId).tree).distances[id]? = some distance →
      ∃ x ∈ Stmt.lookupsAll .start (parse source firstId).tree, x.occurrence.id = id) ∧
    ∀ x ∈ Stmt.lookupsAll .start (parse source firstId).tree,
      x.context.Entered ∧ x.Linked (resolve (parse source firstId).tree).symbols := by
  have hsteps := Stmt.stepsAll .start (parse source firstId).tree
  have hconsistent := consistent_of_parse source firstId
  refine ⟨hconsistent, ⟨Context.entered_start, fun c hc s => ?_⟩,
    fun id distance hid => ?_, fun x hx => ⟨?_, fun distance id hfound => ?_⟩⟩
  · exact ⟨(s.steps c).entered hc, (s.steps c).entered_lookups hc⟩
  · refine (hsteps.recorded id).resolve_left fun hsame => ?_
    have hnone : Context.start.distances[id]? = none := by simp [Context.start]
    cases (hid.symm.trans hsame).trans hnone
  · exact hsteps.entered_lookups Context.entered_start x hx
  · have hsplits := hsteps.splits x hx
    obtain ⟨t, rfl, hlinks⟩ := hsplits.linked Context.coherent_start
      (nodup_words_parse source firstId) hfound
    obtain ⟨d, hd, rfl⟩ := hlinks.definitionOf
    have hname := mem_tokens_of_word source firstId hsplits.mem_words
    obtain ⟨hmem, href⟩ := (hconsistent.definitionOf _ hname d).mp hd
    exact ⟨d, (hconsistent.definition _ d).mpr ⟨hmem, rfl⟩, hd, href⟩

end

end Lox
