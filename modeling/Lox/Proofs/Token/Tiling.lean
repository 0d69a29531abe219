import Mathlib.Data.List.TakeWhile
import Mathlib.Data.String.Basic
import Lox.Proofs.Token.Joined

/-!
# How items tile a text

The items of a text stand behind one another, at the boundaries of its characters. Between them
there are only blanks and comments.

* `place`: the position of a stretch of text, `Skipped`: what belongs to no item;
* `munch_dropped`, `munch_problem`: what the scanner drops and what it reports;
* `Tiles`: items that follow one another through a text, `Scanner.tiles_items`: those of a scanner do;
* `Tiling`: how items lie in a text, in terms of bytes;
* **`tiling_scan`**: the items of a text tile it, and behind its end nothing follows;
* `nonempty_tokens`, `ordered_tokens`, **`starts_tokens`**: its tokens cover some text, and stand and
  begin behind one another.
-/

namespace Lox

/-! ## Places -/

/-- The place of `text` behind the characters `before`. It has the line on which it ends. -/
def place (before text : List Char) : Position :=
  ⟨1 + (before ++ text).count '\n', byteLength before, byteLength (before ++ text)⟩

theorem byteLength_pos {text : List Char} (h : text ≠ []) : 0 < byteLength text := by
  cases text with
  | nil => exact absurd rfl h
  | cons c cs => exact Nat.lt_of_lt_of_le c.utf8Size_pos (Nat.le_add_right _ _)

theorem byteLength_toList (source : String) : byteLength source.toList = source.utf8ByteSize := by
  have hlength (cs : List Char) : byteLength cs = String.utf8Len cs := by
    induction cs with
    | nil => rfl
    | cons c cs ih => rw [byteLength, ih, String.utf8Len_cons, Nat.add_comm]
  rw [hlength, ← String.utf8ByteSize_ofList, String.ofList_toList]

/-- Where an item stands. -/
def Item.position : Item → Position
  | .ok t => t.position
  | .error p => p.position

/-! ## What a lexeme is -/

/-- The characters in front of a text belong to no item: a blank, or a comment that reaches up to the
end of its line. -/
inductive Skipped : List Char → List Char → Prop where
  | blank {c rest} : isBlank c = true → Skipped [c] rest
  | comment {body rest} : '\n' ∉ body → (∀ c ∈ rest.head?, c = '\n') →
      Skipped ('/' :: '/' :: body) rest

/-- What a problem covers in front of a text: one character that begins no lexeme, or a quote and all
that follows it. -/
inductive LexicalProblem.Covers : LexicalProblem → List Char → List Char → Prop where
  | unexpected {c rest} : Covers .unexpectedCharacter [c] rest
  | unterminated {contents} : '"' ∉ contents → Covers .unterminatedString ('"' :: contents) []

theorem LexicalProblem.Covers.ne_nil {p : LexicalProblem} {text rest : List Char}
    (h : p.Covers text rest) : text ≠ [] := by
  cases h <;> exact List.cons_ne_nil _ _

namespace Munch

variable {c : Char} {cs : List Char} {p : LexicalProblem}

theorem problem_of_mark (h : (mark c cs).lexeme = .problem p) :
    p.Covers (mark c cs).taken (mark c cs).rest := by
  have hsingle {cs : List Char} (h : (single c cs).lexeme = .problem p) :
      p.Covers (single c cs).taken (single c cs).rest := by
    unfold single at h ⊢
    split at h <;> cases h
    exact .unexpected
  cases cs with
  | nil => exact hsingle h
  | cons d cs =>
    rw [mark] at h ⊢
    split at h
    · cases h
    · exact hsingle h

theorem problem_of_quoted (h : (quoted '"' cs).lexeme = .problem p) :
    p.Covers (quoted '"' cs).taken (quoted '"' cs).rest := by
  unfold quoted at h ⊢
  split at h
  · cases h
    exact .unterminated fun hmem => by simpa using List.mem_takeWhile_imp hmem
  · cases h

theorem problem_of_number (h : (number c cs).lexeme = .problem p) : False := by
  unfold number at h
  split at h
  · split at h <;> cases h
  · cases h

end Munch

/-- **What the scanner drops** is a blank or a comment. -/
theorem munch_dropped {c : Char} {cs : List Char} (h : (munch c cs).lexeme = .dropped) :
    Skipped (munch c cs).taken (munch c cs).rest := by
  revert h
  unfold munch
  split
  · exact fun _ => .blank ‹_›
  split
  · unfold Munch.quoted
    split <;> exact nofun
  split
  · unfold Munch.number
    repeat' split
    all_goals exact nofun
  split
  · exact nofun
  split
  · rename_i hslash
    obtain ⟨rfl, hhead⟩ : c = '/' ∧ cs.head? = some '/' := by simpa using hslash
    obtain ⟨body, rfl⟩ := List.head?_eq_some_iff.mp hhead
    intro _
    refine .comment (fun hmem => by simpa using List.mem_takeWhile_imp hmem) fun d hd => ?_
    have hstop := List.head?_dropWhile_not (· != '\n') body
    have hd : (body.dropWhile (· != '\n')).head? = some d := hd
    rw [hd] at hstop
    simpa using hstop
  · unfold Munch.mark Munch.single
    repeat' split
    all_goals exact nofun

/-- **What the scanner reports** is one character, or a quote and the rest of the text. -/
theorem munch_problem {c : Char} {cs : List Char} {p : LexicalProblem}
    (h : (munch c cs).lexeme = .problem p) : p.Covers (munch c cs).taken (munch c cs).rest := by
  revert h
  unfold munch
  split
  · exact nofun
  split
  · rename_i hquote
    obtain rfl : c = '"' := by simpa using hquote
    exact Munch.problem_of_quoted
  split
  · exact fun h => (Munch.problem_of_number h).elim
  split
  · exact nofun
  split
  · exact nofun
  · exact Munch.problem_of_mark

/-! ## Items behind one another -/

/-- The text stands behind the characters `before`, and the items follow one another through it. The
tokens are numbered from `id` on. -/
inductive Tiles : List Char → List Char → TokenId → List Item → Prop where
  | gap {before skipped rest id items} : Skipped skipped rest →
      Tiles (before ++ skipped) rest id items → Tiles before (skipped ++ rest) id items
  | token {before text rest id items kind} : text ≠ [] → kind.terminal ≠ .endOfInput →
      Tiles (before ++ text) rest (id + 1) items →
      Tiles before (text ++ rest) id (.ok ⟨kind, String.ofList text, place before text, id⟩ :: items)
  | problem {before text rest id items p} : p.Covers text rest →
      Tiles (before ++ text) rest id items →
      Tiles before (text ++ rest) id (.error ⟨p, place before text⟩ :: items)
  | last {before id} : Tiles before [] id [.ok ⟨.endOfInput, "", place before [], id⟩]

/-- What the item says of the text that it covers, in front of `rest`. -/
def Item.Covers : Item → List Char → List Char → Prop
  | .ok t, text, _ => t.lexeme = String.ofList text ∧ (t.terminal = .endOfInput ↔ text = [])
  | .error p, text, rest => p.value.Covers text rest

/-- **The items of a scanner follow one another** through the text in front of which it stands. -/
theorem Scanner.tiles_items {s : Scanner} (hf : s.finished = false) {before : List Char}
    (hoffset : s.offset = byteLength before) (hline : s.line = 1 + before.count '\n') :
    Tiles before s.rest s.nextId s.items := by
  generalize hn : s.rest.length = n
  induction n using Nat.strongRecOn generalizing s before with
  | ind n ih =>
    cases hr : s.rest with
    | nil =>
      have hplace : place before [] = ⟨s.line, s.offset, s.offset⟩ := by
        rw [place, List.append_nil, hoffset, hline]
      rw [items_nil hf hr, token, ← hplace]
      exact .last
    | cons c cs =>
      have hlt : (munch c cs).rest.length < n := by
        rw [← hn, hr]
        exact length_rest_lt c cs
      have hbytes : s.offset + byteLength (munch c cs).taken =
          byteLength (before ++ (munch c cs).taken) := by rw [byteLength_append, hoffset]
      have hlines : s.line + (munch c cs).taken.count '\n' =
          1 + (before ++ (munch c cs).taken).count '\n' := by
        rw [List.count_append, hline, Nat.add_assoc]
      -- what follows the lexeme, from any number on
      have hbehind (id : TokenId) : Tiles (before ++ (munch c cs).taken) (munch c cs).rest id
          ({ s.pass (munch c cs).taken (munch c cs).rest with nextId := id } : Scanner).items :=
        ih _ hlt (s := { s.pass (munch c cs).taken (munch c cs).rest with nextId := id }) hf hbytes
          hlines rfl
      have hplace : place before (munch c cs).taken = ⟨s.line + (munch c cs).taken.count '\n',
          s.offset, s.offset + byteLength (munch c cs).taken⟩ := by
        rw [place, hbytes, hlines, hoffset]
      rw [items_cons hf hr, ← taken_append_rest c cs]
      cases hm : (munch c cs).lexeme with
      | dropped => exact .gap (munch_dropped hm) (hbehind s.nextId)
      | token kind =>
        have htoken := Tiles.token (taken_ne_nil c cs) (fits_munch hm).1 (hbehind (s.nextId + 1))
        rw [hplace] at htoken
        exact htoken
      | problem p =>
        have hproblem := Tiles.problem (munch_problem hm) (hbehind s.nextId)
        rw [hplace] at hproblem
        exact hproblem

namespace Tiles

variable {before rest : List Char} {id : TokenId} {items : List Item}

theorem start_le (h : Tiles before rest id items) :
    ∀ item ∈ items, byteLength before ≤ item.position.start := by
  induction h with
  | gap _ _ ih =>
    intro item hmem
    have hle := ih item hmem
    rw [byteLength_append] at hle
    omega
  | token _ _ _ ih | problem _ _ ih =>
    refine List.forall_mem_cons.mpr ⟨Nat.le_refl _, fun item hmem => ?_⟩
    have hle := ih item hmem
    rw [byteLength_append] at hle
    omega
  | last => exact List.forall_mem_singleton.mpr (Nat.le_refl _)

theorem ordered (h : Tiles before rest id items) :
    items.Pairwise fun a b => a.position.stop ≤ b.position.start := by
  induction h with
  | gap _ _ ih => exact ih
  | token _ _ hrest ih => exact .cons hrest.start_le ih
  | problem _ hrest ih => exact .cons hrest.start_le ih
  | last => exact List.pairwise_singleton _ _

/-- Every item stands at the characters that it covers. -/
theorem placed (h : Tiles before rest id items) : ∀ item ∈ items, ∃ front text back,
    before ++ rest = front ++ text ++ back ∧ item.position = place front text ∧
      item.Covers text back := by
  induction h with
  | @gap before skipped rest id items _ _ ih =>
    rw [← List.append_assoc]
    exact ih
  | @token before text rest id items kind htext hkind _ ih =>
    rw [← List.append_assoc]
    refine List.forall_mem_cons.mpr ⟨⟨before, text, rest, rfl, rfl, rfl, ?_⟩, ih⟩
    exact ⟨fun he => absurd he hkind, fun he => absurd he htext⟩
  | @problem before text rest id items p hp _ ih =>
    rw [← List.append_assoc]
    exact List.forall_mem_cons.mpr ⟨⟨before, text, rest, rfl, rfl, hp⟩, ih⟩
  | @last before id =>
    refine List.forall_mem_singleton.mpr ⟨before, [], [], ?_, rfl, rfl, iff_of_true rfl rfl⟩
    simp

theorem nonempty (h : Tiles before rest id items) : ∀ item ∈ items,
    item.position.start < item.position.stop ∨ ∃ t, item = .ok t ∧ t.terminal = .endOfInput := by
  intro item hmem
  obtain ⟨front, text, back, -, hplace, hcovers⟩ := h.placed item hmem
  by_cases htext : text = []
  · cases item with
    | ok t => exact .inr ⟨t, rfl, hcovers.2.mpr htext⟩
    | error p => exact absurd htext hcovers.ne_nil
  · have hpos := byteLength_pos htext
    rw [hplace, place, byteLength_append]
    exact .inl (Nat.lt_add_of_pos_right hpos)

/-- A byte of the text lies in an item, or in a blank or comment that no item touches. -/
theorem covered (h : Tiles before rest id items) {n : Nat} (hle : byteLength before ≤ n)
    (hlt : n < byteLength (before ++ rest)) :
    (∃ item ∈ items, item.position.start ≤ n ∧ n < item.position.stop) ∨
      ∃ front text back, before ++ rest = front ++ text ++ back ∧ Skipped text back ∧
        byteLength before ≤ byteLength front ∧ byteLength front ≤ n ∧
        n < byteLength (front ++ text) ∧ ∀ item ∈ items,
          item.position.stop ≤ byteLength front ∨ byteLength (front ++ text) ≤ item.position.start := by
  induction h with
  | @gap before skipped rest id items hskipped hrest ih =>
    rw [← List.append_assoc] at hlt ⊢
    by_cases hn : n < byteLength (before ++ skipped)
    · exact .inr ⟨before, skipped, rest, rfl, hskipped, Nat.le_refl _, hle, hn,
        fun item hmem => .inr (hrest.start_le item hmem)⟩
    · refine (ih (Nat.le_of_not_lt hn) hlt).imp_right ?_
      rintro ⟨front, text, back, heq, htext, hfront, hbyte⟩
      rw [byteLength_append] at hfront
      exact ⟨front, text, back, heq, htext, by omega, hbyte⟩
  | @token before text rest id items kind _ _ _ ih | @problem before text rest id items p _ _ ih =>
    rw [← List.append_assoc] at hlt ⊢
    by_cases hn : n < byteLength (before ++ text)
    · exact .inl ⟨_, List.mem_cons_self, hle, hn⟩
    · obtain ⟨item, hmem, hitem⟩ | ⟨front, text', back, heq, htext, hfront, hfrom, hto, hapart⟩ :=
        ih (Nat.le_of_not_lt hn) hlt
      · exact .inl ⟨item, List.mem_cons_of_mem _ hmem, hitem⟩
      · refine .inr ⟨front, text', back, heq, htext, ?_, hfrom, hto,
          List.forall_mem_cons.mpr ⟨.inl hfront, hapart⟩⟩
        rw [byteLength_append] at hfront
        omega
  | last => simp at hlt; omega

theorem ending (h : Tiles before rest id items) : ∃ front last, items = front ++ [.ok last] ∧
    last.kind = .endOfInput ∧ last.position = place (before ++ rest) [] ∧
      ∀ t, .ok t ∈ front → t.terminal ≠ .endOfInput := by
  induction h with
  | gap _ _ ih =>
    rw [← List.append_assoc]
    exact ih
  | @token before text rest id items kind _ hkind _ ih =>
    obtain ⟨front, last, rfl, hlast, hplace, hfront⟩ := ih
    rw [← List.append_assoc]
    refine ⟨_ :: front, last, rfl, hlast, hplace, fun t ht => ?_⟩
    obtain he | ht := List.mem_cons.mp ht
    · cases he
      exact hkind
    · exact hfront t ht
  | problem _ _ ih =>
    obtain ⟨front, last, rfl, hlast, hplace, hfront⟩ := ih
    rw [← List.append_assoc]
    refine ⟨_ :: front, last, rfl, hlast, hplace, fun t ht => ?_⟩
    obtain he | ht := List.mem_cons.mp ht
    · cases he
    · exact hfront t ht
  | last => exact ⟨[], _, rfl, rfl, by simp, fun _ h => absurd h List.not_mem_nil⟩

end Tiles

/-! ## Texts -/

/-- How items lie in a text, whose bytes are counted from 0. -/
structure Tiling (source : String) (items : List Item) : Prop where
  /-- No item ends behind the beginning of a later one. -/
  ordered : items.Pairwise fun a b => a.position.stop ≤ b.position.start
  /-- Only the end of the text covers nothing. -/
  nonempty : ∀ item ∈ items, item.position.start < item.position.stop ∨
    ∃ t, item = .ok t ∧ t.terminal = .endOfInput
  /-- An item begins and ends between characters, on the line that its position names; a token is
  read from what it covers, and a problem covers what is wrong. -/
  placed : ∀ item ∈ items, ∃ front text back, source.toList = front ++ text ++ back ∧
    item.position = place front text ∧ item.Covers text back
  /-- A byte that lies in no item belongs to a blank or a comment, which no item touches. -/
  covered : ∀ n < source.utf8ByteSize,
    (∃ item ∈ items, item.position.start ≤ n ∧ n < item.position.stop) ∨
      ∃ front text back, source.toList = front ++ text ++ back ∧ Skipped text back ∧
        byteLength front ≤ n ∧ n < byteLength (front ++ text) ∧ ∀ item ∈ items,
          item.position.stop ≤ byteLength front ∨ byteLength (front ++ text) ≤ item.position.start
  /-- The tokens are numbered from 0 on; problems take no numbers. -/
  numbered : (items.filterMap Except.toOption).map Token.id =
    List.range (items.filterMap Except.toOption).length
  /-- The last item is the only end, and stands behind all bytes. -/
  ending : ∃ front last, items = front ++ [.ok last] ∧ last.kind = .endOfInput ∧
    last.position.start = source.utf8ByteSize ∧ last.position.stop = source.utf8ByteSize ∧
      ∀ t, .ok t ∈ front → t.terminal ≠ .endOfInput

/-- A scanner that has yielded the end of its text yields nothing more. -/
theorem Scanner.next?_of_last {s t : Scanner} {last : Token} (h : s.next? = some (.ok last, t))
    (hlast : last.terminal = .endOfInput) : t.next? = none := by
  cases hf : s.finished with
  | true =>
    rw [next?, if_pos hf] at h
    cases h
  | false =>
    obtain ⟨item, t', hnext, hyields⟩ := yields_next? hf
    rw [hnext] at h
    cases h
    cases hyields with
    | token _ _ _ hne => exact absurd hlast hne
    | last hfinished => rw [next?, if_pos hfinished]

theorem tiles_scan (source : String) : Tiles [] source.toList 0 (scan source) :=
  Scanner.tiles_items (s := .ofString source) rfl rfl rfl

/-- **The items of a text tile it.** They stand behind one another at the boundaries of its
characters, what lies between them is blanks and comments, and they are what they cover. The end
of the text comes last. -/
theorem tiling_scan (source : String) : Tiling source (scan source) ∧
    ∀ (s t : Scanner) (last : Token), s.next? = some (.ok last, t) →
      last.terminal = .endOfInput → t.next? = none := by
  have htiles := tiles_scan source
  refine ⟨⟨htiles.ordered, htiles.nonempty, htiles.placed, fun n hn => ?_, ?_, ?_⟩,
    fun s t last => Scanner.next?_of_last⟩
  · rw [← byteLength_toList] at hn
    obtain hitem | ⟨front, text, back, heq, hskipped, -, hrest⟩ := htiles.covered (Nat.zero_le n) hn
    · exact .inl hitem
    · exact .inr ⟨front, text, back, heq, hskipped, hrest⟩
  · rw [List.range_eq_range']
    exact ids_tokens source
  · obtain ⟨front, last, hitems, hkind, hplace, hfront⟩ := htiles.ending
    refine ⟨front, last, hitems, hkind, ?_, ?_, hfront⟩ <;>
      rw [hplace, place, ← byteLength_toList] <;> simp

section

variable {source : String}

theorem mem_tokens {t : Token} : t ∈ tokens source ↔ .ok t ∈ scan source := by
  rw [tokens, List.mem_filterMap]
  constructor
  · rintro ⟨item, hitem, hok⟩
    cases item <;> cases hok
    exact hitem
  · intro h
    exact ⟨.ok t, h, rfl⟩

theorem nonempty_tokens {t : Token} (h : t ∈ (tokens source).dropLast) :
    t.position.start < t.position.stop := by
  have htiles := tiles_scan source
  obtain ⟨front, last, hitems, -, -, hfront⟩ := htiles.ending
  obtain hlt | ⟨u, hu, hend⟩ := htiles.nonempty (.ok t) (mem_tokens.mp (List.dropLast_subset _ h))
  · exact hlt
  · cases hu
    have hdrop : (tokens source).dropLast = front.filterMap Except.toOption := by
      rw [tokens, hitems, List.filterMap_append]
      exact List.dropLast_concat
    rw [hdrop, List.mem_filterMap] at h
    obtain ⟨item, hitem, hok⟩ := h
    cases item <;> cases hok
    exact absurd hend (hfront t hitem)

variable (source)

theorem ordered_tokens :
    (tokens source).Pairwise fun t u => t.position.stop ≤ u.position.start := by
  rw [tokens, List.pairwise_filterMap]
  refine (tiles_scan source).ordered.imp fun {a b} hab t ht u hu => ?_
  cases a <;> cases ht
  cases b <;> cases hu
  exact hab

/-- **Every token of a text begins behind the beginning of the one in front of it.** -/
theorem starts_tokens :
    (tokens source).Pairwise fun t u => t.position.start < u.position.start := by
  have hordered := ordered_tokens source
  rw [← List.dropLast_append_getLast (ended_tokens source).ne_nil] at hordered ⊢
  have hparts := List.pairwise_append.mp hordered
  refine List.pairwise_append.mpr ⟨?_, List.pairwise_singleton _ _, fun t ht u hu => ?_⟩
  · exact hparts.1.imp_of_mem fun ht _ hle => Nat.lt_of_lt_of_le (nonempty_tokens ht) hle
  · exact Nat.lt_of_lt_of_le (nonempty_tokens ht) (hparts.2.2 t ht u hu)

end

end Lox
