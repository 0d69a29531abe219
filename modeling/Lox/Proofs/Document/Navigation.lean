import Mathlib.Data.List.Pairwise
import Lox.Proofs.Document.Analysis
import Lox.Proofs.Token.Identifiers

/-!
# Finding the occurrences of a symbol

* `Position.Apart`: no cursor touches both of two ranges;
* `name_of_occurrence`, `pairwise_occurrences`: what the symbols of a text keep are identifiers of it,
  and all of them stand apart;
* `eq_of_definition`, `eq_of_occurrence`: so a cursor touches one occurrence of one definition, if it touches any;
* **`navigation_unambiguous`**: the definition that a cursor finds is the only one that it touches, and
  from each occurrence of it the same occurrences are found and renamed.
-/

namespace Lox

namespace Position

/-- No cursor touches both ranges: one of them ends in front of the beginning of the other one. -/
def Apart (p q : Position) : Prop := p.stop < q.start ∨ q.stop < p.start

theorem Apart.symm {p q : Position} (h : p.Apart q) : q.Apart p := Or.comm.mp h

theorem Apart.not_contains {p q : Position} {offset : Nat} (h : p.Apart q)
    (hp : p.contains offset = true) : ¬ q.contains offset = true := by
  intro hq
  rw [contains_iff] at hp hq
  rcases h with h | h <;> omega

end Position

theorem Definition.covers_iff {d : Definition} {offset : Nat} :
    d.covers offset = true ↔ ∃ t ∈ d.occurrences, t.position.contains offset = true := by
  rw [covers, Bool.or_eq_true, Array.any_eq_true']
  constructor
  · rintro (hdeclaring | ⟨r, hr, huse⟩)
    · exact ⟨d.token, mem_occurrences.mpr (.inl rfl), hdeclaring⟩
    · exact ⟨r, mem_occurrences.mpr (.inr hr), huse⟩
  · rintro ⟨t, ht, htouch⟩
    obtain rfl | hr := mem_occurrences.mp ht
    · exact .inl htouch
    · exact .inr ⟨t, hr, htouch⟩

/-! ## The occurrences in a text -/

section

variable {source : String} {d : Definition} {t u : Token}

theorem name_of_occurrence (hclean : (parse source 0).clean = true)
    (hd : d ∈ (resolve (parse source 0).tree).symbols.definitions) (ht : t ∈ d.occurrences) :
    t ∈ names (tokens source) ∧ t.lexeme = d.token.lexeme := by
  have hdeclared : d.token ∈ names (tokens source) := by
    rw [← names_of_clean source 0 hclean]
    obtain ⟨n, hn, hdecl⟩ := List.mem_filterMap.mp (exists_definition.mpr ⟨d, hd, rfl, rfl⟩)
    refine List.mem_map.mpr ⟨n, hn, ?_⟩
    unfold Naming.declaration? at hdecl
    split at hdecl
    · exact (Prod.mk.inj (Option.some.inj hdecl)).1
    · cases hdecl
  obtain rfl | hr := Definition.mem_occurrences.mp ht
  · exact ⟨hdeclared, rfl⟩
  · have hlexeme := (coherent_of_parse source 0).spelled d hd t hr
    have hword := (occurrences_of_parse source 0).subset (SymbolGraph.mem_occurrences.mpr ⟨d, hd, ht⟩)
    have htoken := ((Stmt.sublist_placesAll _).trans (sublist_places_parse source 0)).subset hword
    obtain ⟨hmem, hname⟩ := mem_names.mp hdeclared
    exact ⟨mem_names.mpr ⟨htoken, isName_of_lexeme hmem htoken hname hlexeme⟩, hlexeme⟩

theorem apart_of_names (ht : t ∈ names (tokens source)) (hu : u ∈ names (tokens source))
    (hne : t ≠ u) : t.position.Apart u.position := by
  have : Std.Symm fun t u : Token => t.position.Apart u.position := ⟨fun _ _ => .symm⟩
  have hapart : (names (tokens source)).Pairwise fun t u => t.position.Apart u.position :=
    (pairwise_names source).imp fun h => Or.inl h
  exact hapart.forall ht hu hne

/-- **All occurrences in the symbols of a text stand apart.** -/
theorem pairwise_occurrences (source : String) :
    (analyze source).symbols.occurrences.Pairwise fun t u =>
      t.id ≠ u.id ∧ t.position.Apart u.position := by
  obtain hnone | ⟨hclean, hsymbols⟩ := symbols_analyze source
  · rw [hnone]
    exact .nil
  · rw [hsymbols]
    have hids := Context.nodup_of_subperm (occurrences_of_parse source 0) (nodup_words_parse source 0)
    refine (List.pairwise_map.mp hids).imp_of_mem fun {t u} ht hu hne => ⟨hne, ?_⟩
    obtain ⟨d, hd, htd⟩ := SymbolGraph.mem_occurrences.mp ht
    obtain ⟨e, he, hue⟩ := SymbolGraph.mem_occurrences.mp hu
    exact apart_of_names (name_of_occurrence hclean hd htd).1 (name_of_occurrence hclean he hue).1
      (fun heq => hne (congrArg Token.id heq))

/-- The occurrences of a definition have one spelling. -/
theorem lexeme_of_occurrence (hd : d ∈ (analyze source).symbols.definitions)
    (ht : t ∈ d.occurrences) : t.lexeme = d.token.lexeme := by
  obtain hnone | ⟨hclean, hsymbols⟩ := symbols_analyze source
  · rw [hnone] at hd
    exact absurd hd (Array.not_mem_empty d)
  · rw [hsymbols] at hd
    exact (name_of_occurrence hclean hd ht).2

end

/-! ## What a cursor touches -/

section

variable {source : String} {offset : Nat} {i j m n : Nat} {d e : Definition} {t u : Token}

theorem eq_of_definition (hd : (analyze source).symbols.definitions[i]? = some d)
    (he : (analyze source).symbols.definitions[j]? = some e) (ht : t ∈ d.occurrences)
    (hu : u ∈ e.occurrences) (htouch : t.position.contains offset = true)
    (htouch' : u.position.contains offset = true) : i = j := by
  have hapart := (List.pairwise_flatMap.mp (pairwise_occurrences source)).2
  rw [List.pairwise_iff_getElem] at hapart
  rw [← Array.getElem?_toList] at hd he
  obtain ⟨hi, rfl⟩ := List.getElem?_eq_some_iff.mp hd
  obtain ⟨hj, rfl⟩ := List.getElem?_eq_some_iff.mp he
  obtain hlt | heq | hgt := Nat.lt_trichotomy i j
  · exact absurd htouch' ((hapart i j hi hj hlt t ht u hu).2.not_contains htouch)
  · exact heq
  · exact absurd htouch ((hapart j i hj hi hgt u hu t ht).2.not_contains htouch')

theorem eq_of_occurrence (hd : d ∈ (analyze source).symbols.definitions)
    (ht : d.occurrences[m]? = some t) (hu : d.occurrences[n]? = some u)
    (htouch : t.position.contains offset = true) (htouch' : u.position.contains offset = true) :
    m = n := by
  have hapart := (List.pairwise_flatMap.mp (pairwise_occurrences source)).1 d
    (Array.mem_toList_iff.mpr hd)
  rw [List.pairwise_iff_getElem] at hapart
  obtain ⟨hm, rfl⟩ := List.getElem?_eq_some_iff.mp ht
  obtain ⟨hn, rfl⟩ := List.getElem?_eq_some_iff.mp hu
  obtain hlt | heq | hgt := Nat.lt_trichotomy m n
  · exact absurd htouch' ((hapart m n hm hn hlt).2.not_contains htouch)
  · exact heq
  · exact absurd htouch ((hapart n m hn hm hgt).2.not_contains htouch')

/-- **A cursor finds a definition** if and only if it touches an occurrence of it. -/
theorem definitionAt_eq_some_iff : (analyze source).definitionAt offset = some d ↔
    d ∈ (analyze source).symbols.definitions ∧ d.covers offset = true := by
  rw [Analysis.definitionAt]
  constructor
  · intro h
    have hcovers := Array.find?_some h
    exact ⟨Array.mem_of_find?_eq_some h, hcovers⟩
  · rintro ⟨hd, hcovers⟩
    cases hfound : (analyze source).symbols.definitions.find? (·.covers offset) with
    | none => exact absurd hcovers (Array.find?_eq_none.mp hfound d hd)
    | some e =>
      obtain ⟨t, ht, htouch⟩ := Definition.covers_iff.mp hcovers
      have he := Array.mem_of_find?_eq_some hfound
      have hcovers' := Array.find?_some hfound
      obtain ⟨u, hu, htouch'⟩ := Definition.covers_iff.mp hcovers'
      obtain ⟨i, hi⟩ := Array.mem_iff_getElem?.mp hd
      obtain ⟨j, hj⟩ := Array.mem_iff_getElem?.mp he
      obtain rfl := eq_of_definition hi hj ht hu htouch htouch'
      exact hj.symm.trans hi

theorem mem_referencesAt : t ∈ (analyze source).referencesAt offset ↔
    ∃ d, (analyze source).definitionAt offset = some d ∧ t ∈ d.occurrences := by
  rw [Analysis.referencesAt]
  cases (analyze source).definitionAt offset <;> simp

theorem pairwise_referencesAt (source : String) (offset : Nat) :
    ((analyze source).referencesAt offset).Pairwise fun t u =>
      t.id ≠ u.id ∧ t.position.Apart u.position := by
  rw [Analysis.referencesAt]
  cases hfound : (analyze source).definitionAt offset with
  | none => exact .nil
  | some d =>
    exact (List.pairwise_flatMap.mp (pairwise_occurrences source)).1 d
      (Array.mem_toList_iff.mpr (definitionAt_eq_some_iff.mp hfound).1)

theorem definitionAt_of_touch {o : Nat} (ht : t ∈ (analyze source).referencesAt offset)
    (htouch : t.position.contains o = true) :
    (analyze source).definitionAt o = (analyze source).definitionAt offset := by
  obtain ⟨d, hfound, hocc⟩ := mem_referencesAt.mp ht
  rw [hfound]
  exact definitionAt_eq_some_iff.mpr
    ⟨(definitionAt_eq_some_iff.mp hfound).1, Definition.covers_iff.mpr ⟨t, hocc, htouch⟩⟩

end

/-- **Navigation is unambiguous.** A cursor touches at most one occurrence of at most one
definition, and finds this definition. From every place at one of its tokens the same tokens are
found, and the same edits, which lie apart. -/
theorem navigation_unambiguous (source : String) (offset : Nat) :
    (∀ (i j m n : Nat) (d e : Definition) (t u : Token),
        (analyze source).symbols.definitions[i]? = some d →
        (analyze source).symbols.definitions[j]? = some e →
        d.occurrences[m]? = some t → e.occurrences[n]? = some u →
        t.position.contains offset = true → u.position.contains offset = true → i = j ∧ m = n) ∧
      (∀ d, (analyze source).definitionAt offset = some d ↔
        d ∈ (analyze source).symbols.definitions ∧
          ∃ t ∈ d.occurrences, t.position.contains offset = true) ∧
      (∀ t ∈ (analyze source).referencesAt offset, ∀ u ∈ (analyze source).referencesAt offset,
        t.lexeme = u.lexeme) ∧
      ((analyze source).referencesAt offset).Pairwise
        (fun t u => t.id ≠ u.id ∧ t.position.Apart u.position) ∧
      ((analyze source).referencesAt offset).head? =
        ((analyze source).definitionAt offset).map Definition.token ∧
      (∀ t ∈ (analyze source).referencesAt offset, ∀ o, t.position.start ≤ o → o ≤ t.position.stop →
        (analyze source).referencesAt o = (analyze source).referencesAt offset ∧
          ∀ newName, (analyze source).rename o newName = (analyze source).rename offset newName) ∧
      ∀ newName, ((analyze source).rename offset newName).Pairwise
        fun x y => x.position.Apart y.position := by
  refine ⟨?_, ?_, ?_, pairwise_referencesAt source offset, ?_, ?_, ?_⟩
  · intro i j m n d e t u hd he ht hu htouch htouch'
    obtain rfl := eq_of_definition hd he (List.mem_of_getElem? ht) (List.mem_of_getElem? hu) htouch
      htouch'
    obtain rfl : d = e := Option.some.inj (hd.symm.trans he)
    exact ⟨rfl, eq_of_occurrence (Array.mem_of_getElem? hd) ht hu htouch htouch'⟩
  · intro d
    rw [definitionAt_eq_some_iff, Definition.covers_iff]
  · intro t ht u hu
    obtain ⟨d, hfound, htd⟩ := mem_referencesAt.mp ht
    obtain ⟨e, hfound', hue⟩ := mem_referencesAt.mp hu
    obtain rfl : d = e := Option.some.inj (hfound.symm.trans hfound')
    have hd := (definitionAt_eq_some_iff.mp hfound).1
    exact (lexeme_of_occurrence hd htd).trans (lexeme_of_occurrence hd hue).symm
  · rw [Analysis.referencesAt]
    cases (analyze source).definitionAt offset <;> rfl
  · intro t ht o hstart hstop
    have hsame : (analyze source).referencesAt o = (analyze source).referencesAt offset := by
      rw [Analysis.referencesAt, definitionAt_of_touch ht (Position.contains_iff.mpr ⟨hstart, hstop⟩)]
      rfl
    exact ⟨hsame, fun newName => by rw [Analysis.rename, hsame, Analysis.rename]⟩
  · intro newName
    exact List.pairwise_map.mpr ((pairwise_referencesAt source offset).imp And.right)

end Lox
