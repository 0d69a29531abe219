import Lox.Binding.SymbolGraph

/-!
# Links from uses to declarations

* `SymbolGraph.tokens`: the declaring tokens, in the order of the definitions;
* `SymbolGraph.Knows`, `SymbolGraph.Links`: a token declares a definition, a token uses one;
* `SymbolGraph.Kept`: declarations and uses by certain words were added and nothing else;
* `SymbolGraph.kept_define`, `SymbolGraph.kept_refer`: that is what both operations do.
-/

namespace Lox

namespace SymbolGraph

/-- The declaring tokens of the definitions. -/
def tokens (g : SymbolGraph) : List Token := g.definitions.toList.map Definition.token

/-- The token declares a definition. -/
def Knows (g : SymbolGraph) (t : Token) : Prop :=
  ∃ i, g.declared[t.id]? = some i ∧ g.tokens[i]? = some t

/-- The token with the number `use` uses what the token `t` declares. -/
def Links (g : SymbolGraph) (use : TokenId) (t : Token) : Prop :=
  ∃ i, g.used[use]? = some i ∧ g.tokens[i]? = some t

variable {g g₁ g₂ : SymbolGraph} {ws xs ys : List TokenId} {t use : Token}

theorem getElem?_of_prefix {ts us : List Token} (h : ts <+: us) {i : Nat} (hi : ts[i]? = some t) :
    us[i]? = some t := by
  obtain ⟨rest, rfl⟩ := h
  rw [List.getElem?_append_left (List.getElem?_eq_some_iff.mp hi).1, hi]

theorem getElem?_tokens (g : SymbolGraph) (i : Nat) :
    g.tokens[i]? = g.definitions[i]?.map Definition.token := by
  rw [tokens, List.getElem?_map, Array.getElem?_toList]

@[simp] theorem tokens_define (kind : SymbolKind) : (g.define t kind).tokens = g.tokens ++ [t] := by
  simp [tokens, define]

theorem tokens_refer (declaring : TokenId) : (g.refer declaring use).tokens = g.tokens := by
  unfold refer
  cases g.declared[declaring]? with
  | none => rfl
  | some index =>
    refine List.ext_getElem? fun i => ?_
    simp only [getElem?_tokens, Array.getElem?_modify]
    split
    · cases g.definitions[i]? <;> rfl
    · rfl

theorem knows_define (kind : SymbolKind) : (g.define t kind).Knows t :=
  ⟨g.definitions.size, by simp [define], by
    rw [tokens_define, List.getElem?_append_right (by simp [tokens])]
    simp [tokens]⟩

theorem links_refer (h : g.Knows t) : (g.refer t.id use).Links use.id t := by
  obtain ⟨i, hi, ht⟩ := h
  refine ⟨i, ?_, by rw [tokens_refer, ht]⟩
  simp [refer, hi]

theorem Links.definitionOf (h : g.Links use.id t) :
    ∃ d, g.definitionOf use.id = some d ∧ d.token = t := by
  obtain ⟨i, hi, ht⟩ := h
  rw [getElem?_tokens, Option.map_eq_some_iff] at ht
  obtain ⟨d, hd, hdt⟩ := ht
  exact ⟨d, by simp [SymbolGraph.definitionOf, hi, hd], hdt⟩

theorem definitionOf_eq_none (h : g.used[use.id]? = none) : g.definitionOf use.id = none := by
  simp [definitionOf, h]

/-- A link lasts as long as the use is left alone. -/
theorem Links.later (h : g.Links use.id t) (hu : g₁.used[use.id]? = g.used[use.id]?)
    (hp : g.tokens <+: g₁.tokens) : g₁.Links use.id t := by
  obtain ⟨i, hi, htok⟩ := h
  exact ⟨i, hu.trans hi, getElem?_of_prefix hp htok⟩

/-- Declarations and uses by the words with the numbers `ws` were added. -/
structure Kept (ws : List TokenId) (g g' : SymbolGraph) : Prop where
  declared : ∀ id, id ∉ ws → g'.declared[id]? = g.declared[id]?
  used : ∀ id, id ∉ ws → g'.used[id]? = g.used[id]?
  tokens : g.tokens <+: g'.tokens

namespace Kept

theorem refl : Kept ws g g := ⟨fun _ _ => rfl, fun _ _ => rfl, List.prefix_rfl⟩

theorem widen (h : Kept xs g g₁) (hsub : ∀ id ∈ xs, id ∈ ys) : Kept ys g g₁ :=
  ⟨fun id hid => h.declared id fun hx => hid (hsub id hx),
    fun id hid => h.used id fun hx => hid (hsub id hx), h.tokens⟩

theorem trans (h₁ : Kept ws g g₁) (h₂ : Kept ws g₁ g₂) : Kept ws g g₂ :=
  ⟨fun id hid => (h₂.declared id hid).trans (h₁.declared id hid),
    fun id hid => (h₂.used id hid).trans (h₁.used id hid), h₁.tokens.trans h₂.tokens⟩

theorem append (h₁ : Kept xs g g₁) (h₂ : Kept ys g₁ g₂) : Kept (xs ++ ys) g g₂ :=
  (h₁.widen fun _ => List.mem_append_left ys).trans (h₂.widen fun _ => List.mem_append_right xs)

theorem knows (h : Kept ws g g₁) (ht : t.id ∉ ws) (hk : g.Knows t) : g₁.Knows t := by
  obtain ⟨i, hi, htok⟩ := hk
  exact ⟨i, (h.declared _ ht).trans hi, getElem?_of_prefix h.tokens htok⟩

end Kept

theorem kept_define (kind : SymbolKind) (hid : t.id ∈ ws) : Kept ws g (g.define t kind) where
  declared := by
    intro id h
    have hne : t.id ≠ id := fun he => h (he ▸ hid)
    simp [define, Std.TreeMap.getElem?_insert, hne]
  used _ _ := rfl
  tokens := by simp

theorem kept_refer (declaring : TokenId) (hid : use.id ∈ ws) : Kept ws g (g.refer declaring use) where
  declared id _ := by
    unfold refer
    split <;> rfl
  used id h := by
    have hne : use.id ≠ id := fun he => h (he ▸ hid)
    unfold refer
    split
    · rfl
    · simp [Std.TreeMap.getElem?_insert, hne]
  tokens := by simp [tokens_refer]

end SymbolGraph

end Lox
