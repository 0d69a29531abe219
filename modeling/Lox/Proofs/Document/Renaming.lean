import Lox.Proofs.Document.Edits
import Lox.Proofs.Document.Navigation
import Lox.Proofs.Session.Renamed

/-!
# Renaming a symbol

An editor gives the symbol under a cursor another name by editing its occurrences. These are the uses
that the resolver linked to it. A run may look up further uses of the name where the symbol is declared:
those in front of the declaration, which it finds among the globals, and those in the initializer of the
variable. Without such uses the edited text does what the text did.

* `isName_of_writes`: what is written like an identifier is one;
* `Renaming.fits`, `Renaming.spares`: a new name is mixed up with no other one, and the names of
  properties stay;
* `Definition.renaming`: the occurrences of a symbol and a name for it, `renamed`: the text with the
  symbol renamed;
* **`rename_preserves`**: the text with a symbol renamed that is declared in front of its uses has no
  errors, and its runs come as far and print as many lines; **`rename_misses_use`**: with a use in
  front of the declaration they may not.
-/

namespace Lox

open Lexicon

variable {source newName : String} {offset : Nat} {t : Token} {d : Definition}

theorem isName_of_writes (ht : t ∈ tokens source) (h : Writes t.lexeme.toList .identifier) :
    t.IsName := by
  obtain ⟨-, hempty⟩ | ⟨front, c, cs, -, hread⟩ := isRead_tokens ht
  · obtain ⟨_, _, hcons, -⟩ := munch_writes h
    rw [hempty] at hcons
    cases hcons
  · rw [hread.spelling, String.toList_ofList] at h
    exact (writes_munch hread.lexeme).unique h

namespace Renaming

variable {q : Renaming source}

/-- **A name that the text does not have is mixed up with no other one.** -/
theorem fits (hfresh : ∀ u ∈ names (tokens source), u.lexeme ≠ q.new) (ht : t ∈ tokens source) :
    q.respelling.Fits t where
  old hp := q.chosen_lexeme t ((picks_iff ht).mp hp)
  word _ k he := by
    have hnew : q.new = k.spelling := he
    have hwrites := q.writes_new
    rw [hnew] at hwrites
    cases hwrites.unique (.reserved k)
  new _ he := hfresh t (mem_names.mpr ⟨ht, isName_of_writes ht (he ▸ q.writes_new)⟩) he

theorem spares (hclean : (parse source 0).clean = true)
    (hwords : q.chosen ⊆ Stmt.wordsAll (parse source 0).tree) :
    q.respelling.Spares (Stmt.namingsAll (parse source 0).tree) := by
  intro n hn hrole
  refine Bool.eq_false_iff.mpr fun hp => ?_
  have hname : n.token ∈ names (tokens source) :=
    names_of_clean source 0 hclean ▸ List.mem_map_of_mem hn
  exact not_mem_words_of_property hclean hn hrole (hwords ((picks_iff (mem_names.mp hname).1).mp hp))

end Renaming

/-! ## The occurrences of a symbol -/

theorem nodup_occurrences (hd : d ∈ (resolve (parse source 0).tree).symbols.definitions) :
    d.occurrences.Nodup := by
  have hids := Context.nodup_of_subperm (occurrences_of_parse source 0) (nodup_words_parse source 0)
  exact (List.nodup_flatMap.mp hids.of_map).1 d (Array.mem_toList_iff.mpr hd)

/-- The occurrences of a symbol, and a new name for it. -/
def Definition.renaming (hclean : (parse source 0).clean = true)
    (hd : d ∈ (resolve (parse source 0).tree).symbols.definitions)
    (hname : Writes newName.toList .identifier) : Renaming source where
  chosen := d.occurrences
  old := d.token.lexeme
  new := newName
  nodup := nodup_occurrences hd
  chosen_names _ ht := (name_of_occurrence hclean hd ht).1
  chosen_lexeme _ ht := (name_of_occurrence hclean hd ht).2
  writes_new := hname

/-- The text with the symbol that a cursor touches renamed. -/
def renamed (source : String) (offset : Nat) (newName : String) : String :=
  applyAll ((analyze source).rename offset newName) source

/-- **Renaming a symbol that is declared in front of its uses preserves the program.** With an
identifier that the text does not have, the edited text has no errors, comes as far in a new
session and prints as many lines. -/
theorem rename_preserves (clock : Nat → Float) (source : String) (offset : Nat) (newName : String)
    (d : Definition) (hvalid : (analyze source).Valid)
    (hfound : (analyze source).definitionAt offset = some d)
    (hname : Writes newName.toList .identifier)
    (hfresh : ∀ t ∈ names (tokens source), t.lexeme ≠ newName)
    (hprecedes : d.PrecedesUses (parse source 0).tree (resolve (parse source 0).tree).distances) :
    (analyze (renamed source offset newName)).Valid ∧ ∀ fuel,
      ((Session.start clock).run (renamed source offset newName) fuel).1.result =
        ((Session.start clock).run source fuel).1.result ∧
      ((Session.start clock).printed (renamed source offset newName) fuel).size =
        ((Session.start clock).printed source fuel).size := by
  obtain ⟨hclean, hquiet⟩ := valid_iff.mp hvalid
  have hd : d ∈ (resolve (parse source 0).tree).symbols.definitions := by
    rw [← (analyze_of_valid hvalid).2.1]
    exact (definitionAt_eq_some_iff.mp hfound).1
  let q : Renaming source := Definition.renaming hclean hd hname
  have hedited : renamed source offset newName = q.edited := by
    rw [renamed, Analysis.rename, Analysis.referencesAt, hfound]
    rfl
  have hwords : q.chosen ⊆ Stmt.wordsAll (parse source 0).tree := fun t ht =>
    (occurrences_of_parse source 0).subset (SymbolGraph.mem_occurrences.mpr ⟨d, hd, ht⟩)
  have hrenames : q.respelling.Renames source (parse source 0).tree d := {
    clean := hclean
    tree := rfl
    noError := hquiet
    defined := hd
    precedes := hprecedes
    old := rfl
    picks := fun t ht => Renaming.picks_iff ht
    fits := fun t ht => Renaming.fits hfresh ht }
  obtain ⟨hclean', htree⟩ := q.parse_edited hclean (Renaming.spares hclean hwords)
  rw [hedited, valid_iff]
  exact ⟨⟨hclean', (hrenames.run_eq clock hclean' htree 0).1⟩,
    fun fuel => (hrenames.run_eq clock hclean' htree fuel).2⟩

/-- A variable of a block that a function uses becomes `c`, in its declaration, in the function and in an
assignment behind it. The program still prints two lines. -/
theorem rename_preserves_captured :
    let source := "\x7b var b = nil; fun f() \x7b print b; \x7d f(); b = true; f(); \x7d"
    (analyze source).Valid ∧
      ((analyze source).definitionAt 6).map (·.occurrences.map (·.position.start)) = some [6, 31, 41] ∧
      renamed source 6 "c" = "\x7b var c = nil; fun f() \x7b print c; \x7d f(); c = true; f(); \x7d" ∧
      ((Session.start fun _ => 0).printed source 20).size = 2 ∧
      (analyze (renamed source 6 "c")).Valid ∧ ∀ fuel,
        ((Session.start fun _ => 0).run (renamed source 6 "c") fuel).1.result =
          ((Session.start fun _ => 0).run source fuel).1.result ∧
        ((Session.start fun _ => 0).printed (renamed source 6 "c") fuel).size =
          ((Session.start fun _ => 0).printed source fuel).size := by
  intro source
  obtain ⟨d, hfound⟩ : ∃ d, (analyze source).definitionAt 6 = some d :=
    Option.isSome_iff_exists.mp (by decide +kernel)
  refine ⟨by decide +kernel, by decide +kernel, by decide +kernel, by decide +kernel, ?_⟩
  refine rename_preserves (fun _ => 0) source 6 "c" d (by decide +kernel) hfound
    (@writes_munch 'c' [] .identifier rfl) (by decide +kernel) ?_
  have hall : ∀ d ∈ (analyze source).definitionAt 6,
      d.PrecedesUses (parse source 0).tree (resolve (parse source 0).tree).distances := by
    decide +kernel
  exact hall d hfound

/-- A function in front of the declaration of a global uses it. The edit does not reach that use, and the
edited program fails. -/
theorem rename_misses_use :
    let source := "fun f() \x7b print a; \x7d var a = nil; f();"
    (analyze source).Valid ∧ Writes "b".toList .identifier ∧
      (∀ t ∈ names (tokens source), t.lexeme ≠ "b") ∧
      (analyze source).rename 25 "b" = [⟨⟨1, 25, 26⟩, "b"⟩] ∧
      renamed source 25 "b" = "fun f() \x7b print a; \x7d var b = nil; f();" ∧
      ((Session.start fun _ => 0).run source 20).1.result = .completed ∧
      ((Session.start fun _ => 0).run (renamed source 25 "b") 20).1.result = .runtimeError :=
  ⟨by decide +kernel, @writes_munch 'b' [] .identifier rfl, by decide +kernel, by decide +kernel,
    by decide +kernel, by decide +kernel, by decide +kernel⟩

end Lox
