import Mathlib.Data.List.Induction
import Mathlib.Data.Nat.Digits.Defs
import Lox.Proofs.Token.Identifiers

/-!
# The lexical grammar

What a token is written with is said without a scanner, and the scanner takes the longest piece that
is written so.

* `Lexicon.Writes`: the characters that a token of a kind is written with, `Lexicon.Longest`: no longer
  piece of a text writes a token;
* `writes_munch`, `munch_writes`: the lexeme at the front of a text writes a token, and what writes a
  token is the lexeme if nothing follows it; **`longest_munch`**: with a text behind it, the lexeme is
  the longest piece;
* `Lexicon.Governs`: what a scanner yields, by the grammar;
* **`maximal_munch`**: so does a scanner wherever it begins a lexeme of a text.
-/

namespace Lox

/-! ## What writes a token -/

namespace Lexicon

/-- A letter of a word. -/
def IsLetter (c : Char) : Prop := 'a' ≤ c ∧ c ≤ 'z' ∨ 'A' ≤ c ∧ c ≤ 'Z' ∨ c = '_'

/-- A digit. -/
def IsDigit (c : Char) : Prop := '0' ≤ c ∧ c ≤ '9'

/-- The double nearest to the decimal that the digits write. -/
def decimal (whole fraction : List Char) : Float :=
  .ofScientific (Nat.ofDigits 10 ((whole ++ fraction).reverse.map Number.digitValue)) true
    fraction.length

/-- The characters write a token of the kind. -/
inductive Writes : List Char → TokenKind → Prop where
  | mark (p : Punct) : Writes p.spelling.toList (.punct p)
  | reserved (k : Keyword) : Writes k.spelling.toList (.keyword k)
  | name {c cs} : IsLetter c → (∀ d ∈ cs, IsLetter d ∨ IsDigit d) →
      (∀ k : Keyword, k.spelling.toList ≠ c :: cs) → Writes (c :: cs) .identifier
  | integer {whole} : whole ≠ [] → (∀ d ∈ whole, IsDigit d) →
      Writes whole (.number (decimal whole []))
  | decimal {whole fraction} : whole ≠ [] → (∀ d ∈ whole, IsDigit d) → fraction ≠ [] →
      (∀ d ∈ fraction, IsDigit d) →
      Writes (whole ++ '.' :: fraction) (.number (decimal whole fraction))
  | string {contents} : '"' ∉ contents →
      Writes ('"' :: (contents ++ ['"'])) (.string (String.ofList contents))

/-- The text in front of `rest` writes a token, and no longer piece of the whole text does. -/
structure Longest (text : List Char) (kind : TokenKind) (rest : List Char) : Prop where
  writes : Writes text kind
  longest : ∀ text' kind' rest', text' ++ rest' = text ++ rest → Writes text' kind' →
    text'.length ≤ text.length

/-- A blank or a comment stands at the front of the text. -/
def Gap (text : List Char) : Prop := ∃ skipped rest, text = skipped ++ rest ∧ Skipped skipped rest

/-- Some piece at the front of the text writes a token. -/
def HasToken (text : List Char) : Prop := ∃ front rest kind, text = front ++ rest ∧ Writes front kind

/-- A quote stands at the front of the text, and there is no later one. -/
def Open (text : List Char) : Prop := ∃ contents, text = '"' :: contents ∧ '"' ∉ contents

/-! ## Characters -/

theorem isDigit_iff {c : Char} : c.isDigit = true ↔ IsDigit c := by
  delta Char.isDigit
  rw [Bool.and_eq_true, decide_eq_true_eq, decide_eq_true_eq]
  rfl

theorem isWordStart_iff {c : Char} : isWordStart c = true ↔ IsLetter c := by
  have hlower : c.isLower = true ↔ 'a' ≤ c ∧ c ≤ 'z' := by
    delta Char.isLower
    rw [Bool.and_eq_true, decide_eq_true_eq, decide_eq_true_eq]
    rfl
  have hupper : c.isUpper = true ↔ 'A' ≤ c ∧ c ≤ 'Z' := decide_eq_true_iff
  have halpha : c.isAlpha = true ↔ c.isUpper = true ∨ c.isLower = true := by
    delta Char.isAlpha
    rw [Bool.or_eq_true]
  rw [isWordStart, Bool.or_eq_true, halpha, hlower, hupper, beq_iff_eq, IsLetter]
  tauto

theorem isWordPart_iff {c : Char} : isWordPart c = true ↔ IsLetter c ∨ IsDigit c := by
  rw [← isWordStart_iff, ← isDigit_iff, isWordPart, isWordStart, Char.isAlphanum]
  simp only [Bool.or_eq_true]
  tauto

theorem ofDigitRow_eq (digits : List Char) :
    Number.ofDigitRow digits = Nat.ofDigits 10 (digits.reverse.map Number.digitValue) := by
  induction digits using List.reverseRecOn with
  | nil => rfl
  | append_singleton digits d ih =>
    rw [List.reverse_concat, List.map_cons, Nat.ofDigits_cons, ← ih, Number.ofDigitRow,
      List.foldl_concat, Nat.add_comm]
    rfl

theorem ofDigits_eq (whole fraction : List Char) :
    Number.ofDigits whole fraction = decimal whole fraction := by
  rw [Number.ofDigits, ofDigitRow_eq, decimal]

end Lexicon

open Lexicon

/-! ## The lexeme writes a token -/

namespace Munch

variable {c : Char} {cs : List Char} {kind : TokenKind}

theorem writes_quoted (h : (quoted '"' cs).lexeme = .token kind) :
    Writes (quoted '"' cs).taken kind := by
  unfold quoted at h ⊢
  cases hdrop : cs.dropWhile (· != '"') with
  | nil =>
    rw [hdrop] at h
    cases h
  | cons close rest =>
    rw [hdrop] at h
    cases h
    have hclose := List.head?_dropWhile_not (· != '"') cs
    rw [hdrop] at hclose
    obtain rfl : close = '"' := by simpa using hclose
    exact .string fun hmem => by simpa using List.mem_takeWhile_imp hmem

theorem isDigit_of_mem_takeWhile {d : Char} (h : d ∈ cs.takeWhile Char.isDigit) : IsDigit d :=
  isDigit_iff.mp (List.mem_takeWhile_imp h)

theorem writes_number (hc : c.isDigit = true) (h : (number c cs).lexeme = .token kind) :
    Writes (number c cs).taken kind := by
  have hwhole : ∀ d ∈ c :: cs.takeWhile Char.isDigit, IsDigit d :=
    List.forall_mem_cons.mpr ⟨isDigit_iff.mp hc, fun _ => isDigit_of_mem_takeWhile⟩
  by_cases hfraction : ∃ d rest, cs.dropWhile Char.isDigit = '.' :: d :: rest ∧ d.isDigit = true
  · obtain ⟨d, rest, hdrop, hd⟩ := hfraction
    rw [number_of_fraction hdrop hd, ofDigits_eq] at h
    rw [number_of_fraction hdrop hd]
    cases h
    exact .decimal (List.cons_ne_nil _ _) hwhole (List.cons_ne_nil _ _)
      (List.forall_mem_cons.mpr ⟨isDigit_iff.mp hd, fun _ => isDigit_of_mem_takeWhile⟩)
  · have hinteger : ∀ d rest, cs.dropWhile Char.isDigit = '.' :: d :: rest → d.isDigit = false :=
      fun d rest hdrop => Bool.eq_false_iff.mpr fun hd => hfraction ⟨d, rest, hdrop, hd⟩
    rw [number_of_integer hinteger, ofDigits_eq] at h
    rw [number_of_integer hinteger]
    cases h
    exact .integer (List.cons_ne_nil _ _) hwhole

theorem writes_word (hc : isWordStart c = true) (h : (word c cs).lexeme = .token kind) :
    Writes (word c cs).taken kind := by
  cases h
  rw [word, wordKind]
  cases hk : Keyword.ofSpelling? (String.ofList (c :: cs.takeWhile isWordPart)) with
  | some k =>
    have hreserved := Writes.reserved k
    rw [Keyword.spelling_of_ofSpelling? hk, String.toList_ofList] at hreserved
    exact hreserved
  | none =>
    refine .name (isWordStart_iff.mp hc)
      (fun d hd => isWordPart_iff.mp (List.mem_takeWhile_imp hd)) fun k hspelling => ?_
    have hno := List.find?_eq_none.mp hk k (Keyword.mem_all k)
    rw [← hspelling, String.ofList_toList] at hno
    exact hno (beq_self_eq_true _)

theorem writes_single (h : (single c cs).lexeme = .token kind) : Writes (single c cs).taken kind := by
  unfold single at h ⊢
  cases hp : Punct.ofChar? c with
  | none =>
    rw [hp] at h
    cases h
  | some p =>
    rw [hp] at h
    cases h
    have hspelling : p.spelling.toList = [c] := by
      unfold Punct.ofChar? at hp
      split at hp <;> cases hp <;> rfl
    exact hspelling ▸ .mark p

theorem writes_mark (h : (mark c cs).lexeme = .token kind) : Writes (mark c cs).taken kind := by
  cases cs with
  | nil => exact writes_single h
  | cons d cs =>
    rw [mark] at h ⊢
    cases hp : Punct.ofPair? c d with
    | none =>
      rw [hp] at h
      exact writes_single h
    | some p =>
      rw [hp] at h
      cases h
      have hspelling : p.spelling.toList = [c, d] := by
        unfold Punct.ofPair? at hp
        split at hp <;> cases hp <;> rfl
      exact hspelling ▸ .mark p

end Munch

/-- **A lexeme that is a token writes it.** -/
theorem writes_munch {c : Char} {cs : List Char} {kind : TokenKind}
    (h : (munch c cs).lexeme = .token kind) : Writes (munch c cs).taken kind := by
  revert h
  unfold munch
  split
  · exact nofun
  split
  · rename_i hquote
    obtain rfl : c = '"' := by simpa using hquote
    exact Munch.writes_quoted
  split
  · exact Munch.writes_number ‹_›
  split
  · exact Munch.writes_word ‹_›
  split
  · exact nofun
  · exact Munch.writes_mark

/-! ## What writes a token is the lexeme -/

theorem munch_digit {c : Char} {cs : List Char} (h : c.isDigit = true) :
    munch c cs = .number c cs := by
  have hblank : ¬ isBlank c = true := by
    intro hb
    rcases eq_of_isBlank hb with rfl | rfl | rfl | rfl <;> revert h <;> decide
  have hquote : ¬ (c == '"') = true := by
    intro hq
    obtain rfl : c = '"' := by simpa using hq
    revert h
    decide
  rw [munch, if_neg hblank, if_neg hquote, if_pos h]

theorem munch_quote (cs : List Char) : munch '"' cs = .quoted '"' cs := rfl

theorem dropWhile_all {α : Type} {p : α → Bool} {xs : List α} (h : ∀ x ∈ xs, p x = true) :
    xs.takeWhile p = xs ∧ xs.dropWhile p = [] :=
  ⟨List.takeWhile_eq_self_iff.mpr h, List.dropWhile_eq_nil_iff.mpr h⟩

theorem bne_of_not_mem {a : Char} {cs : List Char} (h : a ∉ cs) : ∀ d ∈ cs, (d != a) = true := by
  intro d hd
  rw [bne_iff_ne]
  rintro rfl
  exact h hd

/-- **What writes a token is the lexeme** of a text in which nothing follows it. -/
theorem munch_writes {text : List Char} {kind : TokenKind} (h : Writes text kind) :
    ∃ c cs, text = c :: cs ∧ munch c cs = ⟨text, [], .token kind⟩ := by
  cases h with
  | mark p => cases p <;> exact ⟨_, _, rfl, rfl⟩
  | reserved k => cases k <;> exact ⟨_, _, rfl, rfl⟩
  | @name c cs hc hcs hk =>
    obtain ⟨htake, hdrop⟩ := dropWhile_all fun d hd => isWordPart_iff.mpr (hcs d hd)
    have hkind : Munch.wordKind (String.ofList (c :: cs)) = .identifier := by
      have hnone : Keyword.ofSpelling? (String.ofList (c :: cs)) = none :=
        List.find?_eq_none.mpr fun k _ hspelling => hk k (by
          rw [eq_of_beq hspelling, String.toList_ofList])
      rw [Munch.wordKind, hnone]
    refine ⟨c, cs, rfl, ?_⟩
    rw [munch_word (isWordStart_iff.mpr hc), Munch.word, htake, hdrop, hkind]
  | integer hne hwhole =>
    obtain ⟨c, cs, rfl⟩ := List.exists_cons_of_ne_nil hne
    obtain ⟨hc, hcs⟩ := List.forall_mem_cons.mp hwhole
    obtain ⟨htake, hdrop⟩ := dropWhile_all fun d hd => isDigit_iff.mpr (hcs d hd)
    refine ⟨c, cs, rfl, ?_⟩
    rw [munch_digit (isDigit_iff.mpr hc), Munch.number_of_integer (by simp [hdrop]), htake, hdrop,
      ofDigits_eq]
  | @decimal whole fraction hne hwhole hne' hfraction =>
    obtain ⟨c, cs, rfl⟩ := List.exists_cons_of_ne_nil hne
    obtain ⟨d, ds, rfl⟩ := List.exists_cons_of_ne_nil hne'
    obtain ⟨hc, hcs⟩ := List.forall_mem_cons.mp hwhole
    obtain ⟨hd, hds⟩ := List.forall_mem_cons.mp hfraction
    obtain ⟨htake, hdrop⟩ := dropWhile_all fun d hd => isDigit_iff.mpr (hds d hd)
    have hpoint : Char.isDigit '.' = false := rfl
    have hcs' : ∀ d ∈ cs, d.isDigit = true := fun d hd => isDigit_iff.mpr (hcs d hd)
    have hfront : (cs ++ '.' :: d :: ds).dropWhile Char.isDigit = '.' :: d :: ds := by
      rw [List.dropWhile_append_of_pos hcs', List.dropWhile_cons_of_neg (by simp [hpoint])]
    have hdigits : (cs ++ '.' :: d :: ds).takeWhile Char.isDigit = cs := by
      rw [List.takeWhile_append_of_pos hcs', List.takeWhile_cons_of_neg (by simp [hpoint]),
        List.append_nil]
    refine ⟨c, cs ++ '.' :: d :: ds, rfl, ?_⟩
    rw [munch_digit (isDigit_iff.mpr hc), Munch.number_of_fraction hfront (isDigit_iff.mpr hd), hdigits,
      htake, hdrop, ofDigits_eq]
    rfl
  | @string contents hcontents =>
    have hall := bne_of_not_mem hcontents
    have hfront : (contents ++ ['"']).dropWhile (· != '"') = ['"'] := by
      rw [List.dropWhile_append_of_pos hall]
      rfl
    have hquoted : (contents ++ ['"']).takeWhile (· != '"') = contents := by
      rw [List.takeWhile_append_of_pos hall]
      exact List.append_nil _
    refine ⟨'"', contents ++ ['"'], rfl, ?_⟩
    rw [munch_quote, Munch.quoted, hfront, hquoted]

/-- What the characters write is certain. -/
theorem Lexicon.Writes.unique {text : List Char} {kind kind' : TokenKind} (h : Writes text kind)
    (h' : Writes text kind') : kind = kind' := by
  obtain ⟨c, cs, rfl, hmunch⟩ := munch_writes h
  obtain ⟨_, _, heq, hmunch'⟩ := munch_writes h'
  obtain ⟨rfl, rfl⟩ := List.cons.inj heq
  rw [hmunch] at hmunch'
  cases hmunch'
  rfl

theorem Lexicon.Writes.reserved_iff {text : List Char} {kind : TokenKind} (h : Writes text kind) :
    (∃ k, kind = .keyword k) ↔ ∃ k : Keyword, text = k.spelling.toList := by
  constructor
  · rintro ⟨k, rfl⟩
    cases h with
    | reserved => exact ⟨k, rfl⟩
  · rintro ⟨k, rfl⟩
    exact ⟨k, h.unique (.reserved k)⟩

/-! ## The longest piece -/

/-- **What is dropped** stands at the front of the text as a gap. -/
theorem munch_skipped {skipped rest : List Char} (h : Skipped skipped rest) :
    ∃ c cs, skipped ++ rest = c :: cs ∧ munch c cs = ⟨skipped, rest, .dropped⟩ := by
  cases h with
  | @blank c rest hblank => exact ⟨c, rest, rfl, if_pos hblank⟩
  | @comment body rest hbody hrest =>
    have hall := bne_of_not_mem (List.not_mem_cons_of_ne_of_not_mem (show '\n' ≠ '/' by decide) hbody)
    have hline : rest.takeWhile (· != '\n') = [] ∧ rest.dropWhile (· != '\n') = rest := by
      cases rest with
      | nil => exact ⟨rfl, rfl⟩
      | cons d rest =>
        obtain rfl := hrest d rfl
        exact ⟨rfl, rfl⟩
    refine ⟨'/', '/' :: body ++ rest, rfl, ?_⟩
    show Munch.comment '/' ('/' :: body ++ rest) = _
    rw [Munch.comment, List.takeWhile_append_of_pos hall, List.dropWhile_append_of_pos hall, hline.1,
      hline.2, List.append_nil]

/-- With a text behind what writes a token, the lexeme is that token or reaches further. -/
theorem munch_append {text rest cs : List Char} {c : Char} {kind : TokenKind} (h : Writes text kind)
    (heq : text ++ rest = c :: cs) :
    munch c cs = ⟨text, rest, .token kind⟩ ∨ text.length < (munch c cs).taken.length := by
  obtain ⟨c', cs', rfl, hmunch⟩ := munch_writes h
  obtain ⟨rfl, hcs⟩ := List.cons.inj heq
  obtain rfl : cs' ++ rest = cs := hcs
  refine Classical.or_iff_not_imp_right.mpr fun hle => ?_
  -- the lexeme ends in front of `rest`, so that `rest` does not matter
  have hall := taken_append_rest c' (cs' ++ rest)
  have hsuffix : rest <:+ (munch c' (cs' ++ rest)).rest := by
    refine List.suffix_of_suffix_length_le ⟨c' :: cs', rfl⟩ ⟨_, hall⟩ ?_
    have hlength := congrArg List.length hall
    simp only [List.length_append, List.length_cons] at hlength hle
    omega
  obtain ⟨text', htext⟩ := hsuffix
  rw [munch_cut htext.symm, hmunch]
  rfl

/-- **The lexeme is the longest piece that writes a token.** -/
theorem longest_munch {c : Char} {cs : List Char} {kind : TokenKind}
    (h : (munch c cs).lexeme = .token kind) :
    Longest (munch c cs).taken kind (munch c cs).rest where
  writes := writes_munch h
  longest text' kind' rest' heq hwrites := by
    rw [taken_append_rest] at heq
    obtain htoken | hlt := munch_append hwrites heq
    · rw [htoken]
    · exact Nat.le_of_lt hlt

theorem munch_open {contents : List Char} (h : '"' ∉ contents) :
    (munch '"' contents).lexeme = .problem .unterminatedString := by
  have hnone : contents.dropWhile (· != '"') = [] :=
    List.dropWhile_eq_nil_iff.mpr (bne_of_not_mem h)
  rw [munch_quote, Munch.quoted, hnone]

/-- In front of no gap, the lexeme is a token if some piece writes one. -/
theorem exists_token_of_hasToken {c : Char} {cs : List Char} (hgap : ¬ Gap (c :: cs))
    (h : HasToken (c :: cs)) : ∃ kind, (munch c cs).lexeme = .token kind := by
  obtain ⟨text, rest, kind, heq, hwrites⟩ := h
  obtain htoken | hlt := munch_append hwrites heq.symm
  · exact ⟨kind, by rw [htoken]⟩
  obtain ⟨c', cs', rfl, hmunch⟩ := munch_writes hwrites
  have hall := taken_append_rest c cs
  cases hm : (munch c cs).lexeme with
  | token kind' => exact ⟨kind', rfl⟩
  | dropped => exact absurd ⟨_, _, hall.symm, munch_dropped hm⟩ hgap
  | problem p =>
    -- a string without an end has no front that is a string
    have hcovers := munch_problem hm
    generalize htaken : (munch c cs).taken = taken at hcovers hall hlt
    generalize (munch c cs).rest = back at hcovers hall
    cases hcovers with
    | unexpected => simp at hlt
    | @unterminated contents hcontents =>
      rw [heq, List.append_nil] at hall
      obtain ⟨rfl, rfl⟩ := List.cons.inj hall
      have hopen := munch_open fun hmem : '"' ∈ cs' => hcontents (List.mem_append_left _ hmem)
      rw [hmunch] at hopen
      cases hopen

/-! ## Scanners -/

/-- What a scanner yields that stands behind `before`, by the grammar. -/
structure Lexicon.Governs (before : List Char) (s : Scanner) : Prop where
  /-- Blanks and comments are skipped without an item. -/
  gap : ∀ skipped rest, s.rest = skipped ++ rest → Skipped skipped rest →
    s.items = (s.pass skipped rest).items
  /-- Where some piece writes a token, there is a longest one. -/
  exists_longest : ¬ Gap s.rest → HasToken s.rest →
    ∃ text rest kind, s.rest = text ++ rest ∧ Longest text kind rest
  /-- The longest piece is yielded as a token, and the scanner goes on behind it. -/
  token : ¬ Gap s.rest → ∀ text rest kind, s.rest = text ++ rest → Longest text kind rest →
    s.items = .ok ⟨kind, String.ofList text, place before text, s.nextId⟩ ::
      { s.pass text rest with nextId := s.nextId + 1 }.items
  /-- Where no piece writes a token, a problem is yielded: a string without an end up to the end of
  the text, or a character. -/
  problem : ¬ Gap s.rest → ¬ HasToken s.rest → ∃ p text rest, s.rest = text ++ rest ∧
    s.items = .error ⟨p, place before text⟩ :: (s.pass text rest).items ∧
    (p.message = "Unterminated string." ∧ Open s.rest ∧ rest = [] ∨
      p.message = "Unexpected character." ∧ ¬ Open s.rest ∧ ∃ c, text = [c])
  /-- A problem is yielded nowhere else. -/
  problem_iff : ¬ Gap s.rest → ((∃ p items, s.items = .error p :: items) ↔ ¬ HasToken s.rest)

/-- **Wherever a scanner begins a lexeme, the grammar governs what it yields.** -/
theorem governs_scanner {s : Scanner} {before cs : List Char} {c : Char} (hf : s.finished = false)
    (hoffset : s.offset = byteLength before) (hline : s.line = 1 + before.count '\n')
    (hr : s.rest = c :: cs) : Governs before s := by
  have hall := taken_append_rest c cs
  have hplace : place before (munch c cs).taken = ⟨s.line + (munch c cs).taken.count '\n', s.offset,
      s.offset + byteLength (munch c cs).taken⟩ := by
    rw [place, List.count_append, byteLength_append, hline, hoffset, Nat.add_assoc]
  have hitems := Scanner.items_cons hf hr
  have htoken (hgap : ¬ Gap s.rest) (hfront : HasToken s.rest) :
      ∃ kind, (munch c cs).lexeme = .token kind := by
    rw [hr] at hgap hfront
    exact exists_token_of_hasToken hgap hfront
  have hproblem (hgap : ¬ Gap s.rest) (hfront : ¬ HasToken s.rest) :
      ∃ p, (munch c cs).lexeme = .problem p := by
    cases hm : (munch c cs).lexeme with
    | dropped => exact absurd ⟨_, _, hr.trans hall.symm, munch_dropped hm⟩ hgap
    | token kind => exact absurd ⟨_, _, kind, hr.trans hall.symm, writes_munch hm⟩ hfront
    | problem p => exact ⟨p, rfl⟩
  constructor
  case gap =>
    intro skipped rest heq hskipped
    obtain ⟨c', cs', hfront, hmunch⟩ := munch_skipped hskipped
    obtain ⟨rfl, rfl⟩ := List.cons.inj (hfront.symm.trans (heq.symm.trans hr))
    rw [hitems, hmunch]
  case exists_longest =>
    intro hgap hfront
    obtain ⟨kind, hm⟩ := htoken hgap hfront
    exact ⟨_, _, kind, hr.trans hall.symm, longest_munch hm⟩
  case token =>
    intro hgap text rest kind heq hlongest
    obtain ⟨kind', hm⟩ := htoken hgap ⟨text, rest, kind, heq, hlongest.writes⟩
    have hlexeme := longest_munch hm
    -- two longest pieces of one text are the same
    have hsplit : text ++ rest = (munch c cs).taken ++ (munch c cs).rest :=
      heq.symm.trans (hr.trans hall.symm)
    have hlength : text.length = (munch c cs).taken.length :=
      Nat.le_antisymm (hlexeme.longest _ _ _ hsplit hlongest.writes)
        (hlongest.longest _ _ _ hsplit.symm hlexeme.writes)
    obtain ⟨htext, hrest⟩ := List.append_inj hsplit hlength
    have hkind : kind = kind' := hlongest.writes.unique (htext ▸ hlexeme.writes)
    rw [hitems, hm, htext, hrest, hkind, hplace]
    rfl
  case problem =>
    intro hgap hfront
    obtain ⟨p, hm⟩ := hproblem hgap hfront
    refine ⟨p, _, _, hr.trans hall.symm, ?_, ?_⟩
    · rw [hitems, hm, hplace]
      rfl
    · have hcovers := munch_problem hm
      generalize (munch c cs).taken = taken at hcovers hall
      generalize (munch c cs).rest = back at hcovers hall
      cases hcovers with
      | @unexpected d rest =>
        refine .inr ⟨rfl, ?_, d, rfl⟩
        rintro ⟨contents, hopen, hcontents⟩
        obtain ⟨rfl, rfl⟩ := List.cons.inj (hr.symm.trans hopen)
        rw [munch_open hcontents] at hm
        cases hm
      | @unterminated contents hcontents =>
        exact .inl ⟨rfl, ⟨contents, by rw [hr, ← hall, List.append_nil], hcontents⟩, rfl⟩
  case problem_iff =>
    intro hgap
    constructor
    · rintro ⟨p, items, herror⟩ hfront
      obtain ⟨kind, hm⟩ := htoken hgap hfront
      rw [hitems, hm] at herror
      cases herror
    · intro hfront
      obtain ⟨p, hm⟩ := hproblem hgap hfront
      exact ⟨_, _, by rw [hitems, hm]⟩

/-- **The scanner implements its grammar by maximal munch.** Wherever it begins a lexeme of a
text, what it yields is what the grammar says of the rest of the text. A word is a reserved one
exactly if it is spelled like one. -/
theorem maximal_munch (source : String) (items : List Item) (s : Scanner)
    (h : (Scanner.ofString source).Scans items s) (hrest : s.rest ≠ []) :
    (∃ before, source.toList = before ++ s.rest ∧ s.offset = byteLength before ∧
      scan source = items ++ s.items ∧ Governs before s) ∧
    ∀ text kind, Writes text kind →
      ((∃ k, kind = .keyword k) ↔ text ∈ Keyword.all.map fun k => k.spelling.toList) := by
  constructor
  · obtain ⟨before, hpast⟩ := h.past
    obtain ⟨c, cs, hr⟩ := List.exists_cons_of_ne_nil hrest
    have hoffset : s.offset = byteLength before := hpast.offset.trans (Nat.zero_add _)
    exact ⟨before, hpast.rest, hoffset, h.items_eq rfl,
      governs_scanner hpast.finished hoffset hpast.line hr⟩
  · intro text kind hwrites
    rw [hwrites.reserved_iff, List.mem_map]
    exact ⟨fun ⟨k, hk⟩ => ⟨k, k.mem_all, hk.symm⟩, fun ⟨k, _, hk⟩ => ⟨k, hk.symm⟩⟩

/-- A second point does not belong to a number: behind `1.2` a lexeme begins with it. -/
theorem maximal_munch_second_point : ∃ items s, (Scanner.ofString "1.2.3").Scans items s ∧
    s.rest = ['.', '3'] ∧ ∃ before, "1.2.3".toList = before ++ s.rest ∧ Governs before s := by
  have hmunch : (munch '1' ['.', '2', '.', '3']).lexeme =
      .token (.number (Number.ofDigits ['1'] ['2'])) := rfl
  have hscans : (Scanner.ofString "1.2.3").Scans _ _ := .token rfl hmunch .done
  obtain ⟨⟨before, hfront, -, -, hgoverns⟩, -⟩ :=
    maximal_munch "1.2.3" _ _ hscans (List.cons_ne_nil '.' ['3'])
  exact ⟨_, _, hscans, rfl, before, hfront, hgoverns⟩

end Lox
