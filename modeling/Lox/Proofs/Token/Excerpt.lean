import Lox.Proofs.Syntax.Joined
import Lox.Proofs.Token.Identifiers

/-!
# A piece of a text as a text of its own

* `Position.Cuts`: the text that lies in a range, `Position.cuts_iff`: there is no other one;
* `map_ok_tokens`: a text without lexical problems has no items but its tokens;
* **`exists_excerpt`**: the text from the beginning of a token to the end of a later one has the tokens
  of this stretch, and no problem;
* `scan_fun`, `tokens_fun`: a text with the word `fun` in front.
-/

namespace Lox

/-- The text lies in the source at this range, whose bytes are counted from 0. -/
def Position.Cuts (p : Position) (source text : String) : Prop :=
  ∃ front back, source.toList = front ++ text.toList ++ back ∧ byteLength front = p.start ∧
    byteLength (front ++ text.toList) = p.stop

theorem Position.cuts_iff {p : Position} {source text other : String} (h : p.Cuts source text) :
    p.Cuts source other ↔ other = text := by
  refine ⟨fun hother => ?_, fun heq => heq ▸ h⟩
  obtain ⟨front, back, hsource, hstart, hstop⟩ := h
  obtain ⟨front', back', hsource', hstart', hstop'⟩ := hother
  have hsplit := hsource'.symm.trans hsource
  have hboth : front' ++ other.toList = front ++ text.toList :=
    eq_of_byteLength hsplit (hstop'.trans hstop.symm)
  obtain rfl : front' = front := eq_of_byteLength hboth (hstart'.trans hstart.symm)
  exact String.toList_inj.mp (List.append_cancel_left hboth)

theorem map_ok_tokens {source : String} (hlexed : (scan source).all Except.isOk = true) :
    (tokens source).map .ok = scan source := by
  have hok := lexed_iff.mp hlexed
  rw [tokens]
  generalize scan source = items at hok ⊢
  induction items with
  | nil => rfl
  | cons item items ih =>
    obtain ⟨t, rfl⟩ := hok item List.mem_cons_self
    exact congrArg (.ok t :: ·) (ih fun item hitem => hok item (List.mem_cons_of_mem _ hitem))

/-- **A stretch of the tokens of a text** is a text of its own: from the beginning of its first token to
the end of its last one. -/
theorem exists_excerpt {source : String} {stretch : List Token} {first last : Token}
    (hlexed : (scan source).all Except.isOk = true) (hstretch : stretch <:+: (tokens source).dropLast)
    (hfirst : stretch.head? = some first) (hlast : stretch.getLast? = some last) :
    ∃ text : String, (∀ p : Position, p.start = first.position.start → p.stop = last.position.stop →
        p.Cuts source text) ∧
      (scan text).all Except.isOk = true ∧
      ∃ r, (tokens text).dropLast = stretch.map (Token.relocate r) := by
  obtain ⟨items, e, hscans, -, -, hitems⟩ := Scanner.scans_items (s := .ofString source) rfl
  have hall : scan source = items ++ [.ok (e.token e .endOfInput [])] := hitems
  have hok : items = (tokens source).dropLast.map .ok := by
    rw [List.map_dropLast, map_ok_tokens hlexed, hall, List.dropLast_concat]
  obtain ⟨us, ws, hsplit⟩ := hstretch
  rw [hok, ← hsplit, List.map_append, List.map_append] at hscans
  have hhead : (stretch.map (Except.ok : Token → Item)).head? = some (.ok first) := by
    rw [List.head?_map, hfirst]
    rfl
  have hend : (stretch.map (Except.ok : Token → Item)).getLast? = some (.ok last) := by
    rw [List.getLast?_map, hlast]
    rfl
  obtain ⟨before, text, b, m, hbefore, htext, hseg, hstart, -, hstop, -⟩ := hscans.slice hhead hend
  have hfinished : b.finished = false := hbefore.finished
  have hline : 1 ≤ b.line := by
    rw [hbefore.line]
    exact Nat.le_add_right 1 _
  -- the scanner in front of the stretch is one in front of the text alone, further back
  have hback : ({ b with rest := text } : Scanner) =
      (Scanner.ofString (String.ofList text)).behind (b.line - 1) b.offset b.nextId := by
    simp [Scanner.behind, Scanner.ofString, hfinished, hline]
  obtain ⟨last', hlast'⟩ : ∃ t : Token, ({ m with rest := [] } : Scanner).items = [.ok t] :=
    ⟨_, Scanner.items_nil (htext.finished.trans hfinished) rfl⟩
  have hitems : (scan (String.ofList text)).map
      (Item.relocate (.behind (b.line - 1) b.offset b.nextId)) = (stretch ++ [last']).map .ok := by
    rw [List.map_append, List.map_singleton, ← hlast', ← (hseg.cut htext).items_eq hfinished, hback,
      Scanner.items_behind]
    rfl
  refine ⟨String.ofList text, fun p hp hp' => ?_, ?_, .backFrom (b.line - 1) b.offset b.nextId, ?_⟩
  · have hfront : byteLength before = b.offset := by
      rw [hbefore.offset]
      exact (Nat.zero_add _).symm
    refine ⟨before, m.rest, ?_, ?_, ?_⟩
    · rw [String.toList_ofList, List.append_assoc, ← htext.rest]
      exact hbefore.rest
    · rw [hfront, hstart, hp]
    · rw [String.toList_ofList, byteLength_append, hfront, ← htext.offset, hstop, hp']
  · refine lexed_iff.mpr fun item hitem => ?_
    have hmem := List.mem_map_of_mem (f := Item.relocate (.behind (b.line - 1) b.offset b.nextId)) hitem
    rw [hitems] at hmem
    obtain ⟨t, -, ht⟩ := List.mem_map.mp hmem
    cases item with
    | ok u => exact ⟨u, rfl⟩
    | error p => cases ht
  · have htokens := congrArg (List.filterMap Except.toOption) hitems
    rw [filterMap_relocate, filterMap_map_ok] at htokens
    have hthere :=
      congrArg (List.map (Token.relocate (.backFrom (b.line - 1) b.offset b.nextId))) htokens
    rw [Token.map_relocate_backFrom, List.map_append, List.map_singleton] at hthere
    rw [tokens, hthere, List.dropLast_concat]

theorem scan_fun (text : String) : ∃ word : Token, word.IsWord .fun ∧
    scan ("fun " ++ text) = .ok word :: (scan text).map (Item.relocate (.behind 0 4 1)) := by
  have hrest : ("fun " ++ text).toList = 'f' :: 'u' :: 'n' :: ' ' :: text.toList := by
    rw [String.toList_append]
    rfl
  have hword : munch 'f' ('u' :: 'n' :: ' ' :: text.toList) =
      ⟨['f', 'u', 'n'], ' ' :: text.toList, .token (.keyword .fun)⟩ := rfl
  have hblank : munch ' ' text.toList = ⟨[' '], text.toList, .dropped⟩ := rfl
  refine ⟨⟨.keyword .fun, "fun", ⟨1, 0, 3⟩, 0⟩, rfl, ?_⟩
  rw [scan, Scanner.items_cons rfl hrest, hword]
  refine congrArg (List.cons _) ?_
  rw [Scanner.items_cons rfl rfl, hblank]
  exact Scanner.items_behind 0 4 1 (.ofString text)

/-- **The tokens of a text with the word `fun` in front of it** are this word and those of the text. -/
theorem tokens_fun (text : String) : ∃ word : Token, word.IsWord .fun ∧
    (tokens ("fun " ++ text)).dropLast =
      word :: (tokens text).dropLast.map (Token.relocate (.behind 0 4 1)) ∧
    (scan ("fun " ++ text)).all Except.isOk = (scan text).all Except.isOk := by
  obtain ⟨word, hword, hscan⟩ := scan_fun text
  refine ⟨word, hword, ?_, ?_⟩
  · have htokens : tokens ("fun " ++ text) =
        word :: (tokens text).map (Token.relocate (.behind 0 4 1)) := by
      rw [tokens, hscan, tokens, ← filterMap_relocate]
      rfl
    rw [htokens, List.map_dropLast]
    exact List.dropLast_cons_of_ne_nil (by simpa using (ended_tokens text).ne_nil)
  · rw [hscan, List.all_cons, List.all_map]
    refine (Bool.true_and _).trans (congrArg (List.all _ ·) (funext fun item => ?_))
    cases item <;> rfl

end Lox
