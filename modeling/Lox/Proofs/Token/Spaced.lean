import Lox.Proofs.Syntax.Joined
import Lox.Proofs.Token.Lexicon

/-!
# Scanning lexemes again

Behind a blank, or at the end of the text, no lexeme reaches further than it did where it was read
first. So the lexemes of a text, with single spaces between them, are scanned to the same tokens.

* `Lexicon.Writes.quoted_of_blank`: only a string holds a blank; **`munch_apart`**: what writes a token
  is the lexeme in front of a blank;
* `Spaced`: a text of lexemes with single spaces between them, `Scanner.items_spaced`: its items;
* **`rescan_stable`**: the tokens of a text are those of its lexemes with spaces between them.
-/

namespace Lox

open Lexicon

/-! ## Lexemes in front of blanks -/

theorem not_isBlank_of_isLetter {c : Char} (h : IsLetter c) : ¬ isBlank c = true := by
  intro hb
  rw [← isWordStart_iff] at h
  rcases eq_of_isBlank hb with rfl | rfl | rfl | rfl <;> revert h <;> decide

theorem not_isBlank_of_isDigit {c : Char} (h : IsDigit c) : ¬ isBlank c = true := by
  intro hb
  rw [← isDigit_iff] at h
  rcases eq_of_isBlank hb with rfl | rfl | rfl | rfl <;> revert h <;> decide

/-- **Only a string holds a blank.** -/
theorem Lexicon.Writes.quoted_of_blank {text : List Char} {kind : TokenKind} (h : Writes text kind)
    {b : Char} (hmem : b ∈ text) (hb : isBlank b = true) :
    ∃ contents, '"' ∉ contents ∧ text = '"' :: (contents ++ ['"']) := by
  cases h with
  | mark p =>
    have hnone : p.spelling.toList.any isBlank = false := by cases p <;> rfl
    exact absurd hb (List.any_eq_false.mp hnone b hmem)
  | reserved k =>
    have hnone : k.spelling.toList.any isBlank = false := by cases k <;> rfl
    exact absurd hb (List.any_eq_false.mp hnone b hmem)
  | name hc hcs _ =>
    obtain rfl | hmem := List.mem_cons.mp hmem
    · exact absurd hb (not_isBlank_of_isLetter hc)
    · exact absurd hb ((hcs b hmem).elim not_isBlank_of_isLetter not_isBlank_of_isDigit)
  | integer _ hwhole => exact absurd hb (not_isBlank_of_isDigit (hwhole b hmem))
  | decimal _ hwhole _ hfraction =>
    obtain hmem | hmem := List.mem_append.mp hmem
    · exact absurd hb (not_isBlank_of_isDigit (hwhole b hmem))
    obtain rfl | hmem := List.mem_cons.mp hmem
    · exact absurd hb (by decide)
    · exact absurd hb (not_isBlank_of_isDigit (hfraction b hmem))
  | string hcontents => exact ⟨_, hcontents, rfl⟩

/-- **What writes a token is the lexeme in front of a blank**, and at the end of the text. -/
theorem munch_apart {text rest : List Char} {kind : TokenKind} (h : Writes text kind)
    (hrest : ∀ b ∈ rest.head?, isBlank b = true) :
    ∃ c cs, text ++ rest = c :: cs ∧ munch c cs = ⟨text, rest, .token kind⟩ := by
  obtain ⟨c, cs, rfl, hmunch⟩ := munch_writes h
  refine ⟨c, cs ++ rest, rfl, ?_⟩
  cases rest with
  | nil => rw [List.append_nil, hmunch]
  | cons b rest =>
    have hb : isBlank b = true := hrest b rfl
    -- a string that begins here ends in front of the blank
    have hclosed : c = '"' → '"' ∈ cs := by
      rintro rfl
      by_contra hopen
      have hproblem := munch_open hopen
      rw [hmunch] at hproblem
      cases hproblem
    refine (munch_append h rfl).resolve_right fun hlt => ?_
    -- a longer lexeme would reach over the blank
    obtain ⟨more, htaken⟩ : ∃ more, (munch c (cs ++ b :: rest)).taken = c :: (cs ++ b :: more) := by
      have hprefix : c :: cs ++ [b] <+: (munch c (cs ++ b :: rest)).taken := by
        refine List.prefix_of_prefix_length_le ?_ ⟨_, taken_append_rest c (cs ++ b :: rest)⟩ ?_
        · exact ⟨rest, by simp⟩
        · rw [List.length_append]
          exact hlt
      obtain ⟨more, hmore⟩ := hprefix
      exact ⟨more, by rw [← hmore]; simp⟩
    cases hm : (munch c (cs ++ b :: rest)).lexeme with
    | dropped =>
      have hskipped := munch_dropped hm
      rw [htaken] at hskipped
      generalize hpiece : cs ++ b :: more = piece at hskipped
      cases hskipped with
      | blank => simp at hpiece
      | comment =>
        cases cs with
        | nil =>
          obtain ⟨rfl, -⟩ := List.cons.inj hpiece
          cases hb
        | cons d cs =>
          obtain ⟨rfl, -⟩ := List.cons.inj hpiece
          have hcomment : Lexeme.dropped = .token kind := congrArg Munch.lexeme hmunch
          cases hcomment
    | token kind' =>
      have hwrites := writes_munch hm
      rw [htaken] at hwrites
      obtain ⟨contents, hcontents, heq⟩ := hwrites.quoted_of_blank (by simp) hb
      obtain ⟨hquote, hpiece⟩ := List.cons.inj heq
      have hfront : cs <+: contents := by
        refine List.prefix_of_prefix_length_le ⟨_, hpiece⟩ ⟨['"'], rfl⟩ ?_
        have hlength := congrArg List.length hpiece
        simp only [List.length_append, List.length_cons, List.length_nil] at hlength
        omega
      exact hcontents (hfront.subset (hclosed hquote))
    | problem p =>
      have hcovers := munch_problem hm
      rw [htaken] at hcovers
      generalize hpiece : cs ++ b :: more = piece at hcovers
      generalize (munch c (cs ++ b :: rest)).rest = back at hcovers
      cases hcovers with
      | unexpected => simp at hpiece
      | unterminated hcontents =>
        exact hcontents (hpiece ▸ List.mem_append_left _ (hclosed rfl))

/-! ## Texts of lexemes -/

/-- What a token is apart from its place. -/
def Token.unplaced (t : Token) : TokenKind × String × TokenId := (t.kind, t.lexeme, t.id)

/-- The lexemes of tokens with single spaces between them. -/
def respaced (ts : List Token) : String := " ".intercalate (ts.map Token.lexeme)

/-- The text is the lexemes of the tokens with single spaces between them, and perhaps one behind
them. -/
inductive Spaced : List Token → List Char → Prop where
  | nil : Spaced [] []
  | last {t} : Spaced [t] t.lexeme.toList
  | cons {t ts text} : Spaced ts text → Spaced (t :: ts) (t.lexeme.toList ++ ' ' :: text)

theorem spaced_respaced (ts : List Token) : Spaced ts (respaced ts).toList := by
  induction ts with
  | nil => exact .nil
  | cons t ts ih =>
    cases ts with
    | nil =>
      rw [respaced, List.map_singleton, String.intercalate_singleton]
      exact .last
    | cons u ts =>
      have htext : (respaced (t :: u :: ts)).toList =
          t.lexeme.toList ++ ' ' :: (respaced (u :: ts)).toList := by
        simp [respaced, String.intercalate_cons_cons]
      exact htext ▸ .cons ih

theorem spaced_respaced_concat (ts : List Token) {last : Token} (h : last.lexeme = "") :
    Spaced ts (respaced (ts ++ [last])).toList := by
  induction ts with
  | nil =>
    have htext : (respaced ([] ++ [last])).toList = [] := by simp [respaced, h]
    exact htext ▸ .nil
  | cons t ts ih =>
    have htext : (respaced (t :: ts ++ [last])).toList =
        t.lexeme.toList ++ ' ' :: (respaced (ts ++ [last])).toList := by
      simp [respaced, String.intercalate_cons_of_ne_nil]
    exact htext ▸ .cons ih

/-! ## Their items -/

namespace Scanner

theorem items_apart {s : Scanner} (hf : s.finished = false) {text rest : List Char} {kind : TokenKind}
    (hr : s.rest = text ++ rest) (h : Writes text kind)
    (hrest : ∀ b ∈ rest.head?, isBlank b = true) :
    ∃ t, t.unplaced = (kind, String.ofList text, s.nextId) ∧
      s.items = .ok t :: { s.pass text rest with nextId := s.nextId + 1 }.items := by
  obtain ⟨c, cs, hfront, hmunch⟩ := munch_apart h hrest
  have hitems := items_cons hf (hr.trans hfront)
  rw [hmunch] at hitems
  exact ⟨_, rfl, hitems⟩

/-- **The items of lexemes with single spaces between them** are tokens like those that they are the
lexemes of, and then the end of the text. -/
theorem items_spaced {ts : List Token} {text : List Char} (h : Spaced ts text) {s : Scanner}
    (hf : s.finished = false) (hr : s.rest = text)
    (hwrites : ∀ t ∈ ts, Writes t.lexeme.toList t.kind)
    (hids : ts.map Token.id = List.range' s.nextId ts.length) :
    ∃ us : List Token, s.items = us.map .ok ∧ us.map Token.unplaced =
      ts.map Token.unplaced ++ [(.endOfInput, "", s.nextId + ts.length)] := by
  induction h generalizing s with
  | nil => exact ⟨[s.token s .endOfInput []], items_nil hf hr, rfl⟩
  | @last t =>
    have hlast : s.rest = t.lexeme.toList ++ [] := by rw [hr, List.append_nil]
    obtain ⟨u, hu, hitems⟩ := items_apart hf hlast (hwrites t List.mem_cons_self) nofun
    obtain ⟨hid, -⟩ := List.cons.inj hids
    rw [items_nil (s := { s.pass _ [] with nextId := s.nextId + 1 }) hf rfl] at hitems
    refine ⟨[u, _], hitems, ?_⟩
    rw [String.ofList_toList, ← hid] at hu
    simp only [List.map_cons, hu]
    rfl
  | @cons t ts text _ ih =>
    obtain ⟨u, hu, hitems⟩ := items_apart hf hr (hwrites t List.mem_cons_self) fun b hb => by
      obtain rfl : ' ' = b := Option.some.inj hb
      rfl
    obtain ⟨hid, hids⟩ := List.cons.inj hids
    have hblank : munch ' ' text = ⟨[' '], text, .dropped⟩ := rfl
    rw [items_cons (s := { s.pass _ (' ' :: text) with nextId := s.nextId + 1 }) hf rfl, hblank]
      at hitems
    obtain ⟨us, hus, hsame⟩ := ih (s := { s with
      rest := text, offset := _, line := _, nextId := s.nextId + 1 }) hf rfl
      (fun t ht => hwrites t (List.mem_cons_of_mem _ ht)) hids
    refine ⟨u :: us, hitems.trans (congrArg (_ :: ·) hus), ?_⟩
    rw [String.ofList_toList, ← hid] at hu
    rw [List.map_cons, hsame, hu, List.length_cons, Nat.add_right_comm, Nat.add_assoc]
    rfl

end Scanner

/-! ## Texts -/

/-- Every token of a text but its end is written by its lexeme, and the lexeme of the end is empty. -/
theorem exists_written (source : String) : ∃ ts last, tokens source = ts ++ [last] ∧
    last.kind = .endOfInput ∧ last.lexeme = "" ∧ ∀ t ∈ ts, Writes t.lexeme.toList t.kind := by
  obtain ⟨front, last, hitems, hkind, -, hfront⟩ := (tiles_scan source).ending
  have htokens : tokens source = front.filterMap Except.toOption ++ [last] := by
    rw [tokens, hitems, List.filterMap_append]
    rfl
  refine ⟨_, last, htokens, hkind, ?_, fun t ht => ?_⟩
  · have hmem : last ∈ tokens source := htokens ▸ List.mem_append_right _ List.mem_cons_self
    obtain ⟨-, hempty⟩ | ⟨_, _, _, -, hread⟩ := isRead_tokens hmem
    · exact hempty
    · exact absurd (congrArg TokenKind.terminal hkind) (fits_munch hread.lexeme).1
  · obtain ⟨hend, -⟩ | ⟨_, _, _, -, hread⟩ := isRead_tokens (htokens ▸ List.mem_append_left _ ht)
    · obtain ⟨item, hitem, hok⟩ := List.mem_filterMap.mp ht
      cases item with
      | error p => cases hok
      | ok u =>
        obtain rfl : u = t := Option.some.inj hok
        exact absurd (congrArg TokenKind.terminal hend) (hfront u hitem)
    · rw [hread.spelling, String.toList_ofList]
      exact writes_munch hread.lexeme

/-- A text is scanned without a problem to tokens like the given ones, wherever they stand. -/
def Rescans (ts : List Token) (text : String) : Prop :=
  (scan text).all Except.isOk = true ∧ (tokens text).map Token.unplaced = ts.map Token.unplaced

/-- **Scanning lexemes again is stable.** The lexemes of a text with single spaces between them,
with or without the empty one of its end, are scanned without a problem to the same kinds, values,
lexemes and numbers. -/
theorem rescan_stable (source : String) :
    Rescans (tokens source) (respaced (tokens source).dropLast) ∧
      Rescans (tokens source) (respaced (tokens source)) := by
  obtain ⟨ts, last, htokens, hkind, hempty, hwrites⟩ := exists_written source
  have hids := ids_tokens source
  rw [htokens, List.map_append, List.length_append, List.length_singleton, List.range'_concat] at hids
  obtain ⟨hids, hid⟩ := List.append_inj' hids rfl
  have hsame (text : String) (h : Spaced ts text.toList) : Rescans (ts ++ [last]) text := by
    obtain ⟨us, hitems, hus⟩ := Scanner.items_spaced h (s := .ofString text) rfl rfl hwrites hids
    have hscan : scan text = us.map .ok := hitems
    constructor
    · refine lexed_iff.mpr fun item hitem => ?_
      obtain ⟨t, -, rfl⟩ := List.mem_map.mp (hscan ▸ hitem)
      exact ⟨t, rfl⟩
    · have hlast : last.unplaced = (.endOfInput, "", 0 + ts.length) := by
        obtain ⟨hid, -⟩ := List.cons.inj hid
        rw [Token.unplaced, hkind, hempty, hid, Nat.one_mul]
      rw [tokens, hscan, filterMap_map_ok, hus, List.map_append, List.map_singleton, hlast]
      rfl
  rw [htokens, List.dropLast_concat]
  exact ⟨hsame _ (spaced_respaced ts), hsame _ (spaced_respaced_concat ts hempty)⟩

example : respaced (tokens "1.2.3!==x// y").dropLast = "1.2 . 3 != = x" := by decide +kernel

end Lox
