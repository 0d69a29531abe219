import Lox.Proofs.Token.Tiling

/-!
# Scanning a part of a text

* `munch_cut`: the lexeme at the front of a text does not depend on what is cut off behind it;
* `Scanner.Past`: a scanner stands behind another one, past a stretch of text;
* `Scanner.Scans`: the items that are yielded on the way from one scanner to another one;
  **`Scanner.scans_items`**: a scanner yields its items on the way to the end of its text;
* **`Scanner.Scans.cut`**: on the way through a text the items do not depend on what stands behind it;
* **`Scanner.Scans.slice`**: items from the midst of a text are yielded on the way from the beginning of
  the first one to the end of the last one.
-/

namespace Lox

/-! ## Cutting a text off behind a lexeme -/

section Rows

variable {α : Type} {p : α → Bool}

theorem eq_nil_of_length_dropWhile {text back : List α} (h : back.dropWhile p = text ++ back) :
    text = [] := by
  have hlength := (List.dropWhile_suffix p (l := back)).length_le
  rw [h, List.length_append] at hlength
  exact List.length_eq_zero_iff.mp (by omega)

/-- What `dropWhile` leaves begins in front of `back`, so that `back` does not matter. -/
theorem dropWhile_cut {xs text back : List α} (h : (xs ++ back).dropWhile p = text ++ back) :
    xs.dropWhile p = text ∧ (xs ++ back).takeWhile p = xs.takeWhile p := by
  by_cases hx : xs.dropWhile p = []
  · rw [List.dropWhile_append, hx, List.isEmpty_nil, if_pos rfl] at h
    obtain rfl := eq_nil_of_length_dropWhile h
    refine ⟨hx, ?_⟩
    have hback : back.takeWhile p = [] := by
      have hlength := congrArg List.length (List.takeWhile_append_dropWhile (p := p) (l := back))
      rw [h, List.nil_append, List.length_append] at hlength
      exact List.length_eq_zero_iff.mp (by omega)
    rw [List.takeWhile_append, hback, List.append_nil]
    split
    · exact (List.takeWhile_eq_self_iff.mpr (List.dropWhile_eq_nil_iff.mp hx)).symm
    · rfl
  · rw [dropWhile_append_of_dropWhile hx] at h
    exact ⟨List.append_cancel_right h, takeWhile_append_of_dropWhile hx back⟩

end Rows

namespace Munch

variable {c : Char} {cs text back : List Char}

theorem number_of_fraction {d : Char} {rest : List Char}
    (h : cs.dropWhile Char.isDigit = '.' :: d :: rest) (hd : d.isDigit = true) :
    number c cs = ⟨c :: (cs.takeWhile Char.isDigit ++ '.' :: d :: rest.takeWhile Char.isDigit),
      rest.dropWhile Char.isDigit, .token (.number (Number.ofDigits (c :: cs.takeWhile Char.isDigit)
        (d :: rest.takeWhile Char.isDigit)))⟩ := by
  rw [number, h]
  simp [hd]

theorem number_of_integer
    (h : ∀ d rest, cs.dropWhile Char.isDigit = '.' :: d :: rest → d.isDigit = false) :
    number c cs = ⟨c :: cs.takeWhile Char.isDigit, cs.dropWhile Char.isDigit,
      .token (.number (Number.ofDigits (c :: cs.takeWhile Char.isDigit) []))⟩ := by
  rw [number]
  split
  · rename_i d rest hdrop
    rw [if_neg (by simp [h d rest hdrop]), hdrop]
  · rfl

theorem quoted_cut (h : (quoted c (cs ++ back)).rest = text ++ back) :
    quoted c (cs ++ back) = (quoted c cs).extend back := by
  cases hdrop : (cs ++ back).dropWhile (· != '"') with
  | nil =>
    rw [quoted, hdrop] at h
    obtain rfl : back = [] := (List.append_eq_nil_iff.mp h.symm).2
    simp [extend]
  | cons close rest =>
    obtain rfl : rest = text ++ back := by
      rw [quoted, hdrop] at h
      exact h
    have hfront : (cs ++ back).dropWhile (· != '"') = (close :: text) ++ back := hdrop
    obtain ⟨hdrop', htake⟩ := dropWhile_cut hfront
    rw [quoted, quoted, hdrop, hdrop', htake]
    rfl

theorem number_cut (h : (number c (cs ++ back)).rest = text ++ back) :
    number c (cs ++ back) = (number c cs).extend back := by
  by_cases hfraction : ∃ d rest, (cs ++ back).dropWhile Char.isDigit = '.' :: d :: rest ∧ d.isDigit
  · obtain ⟨d, rest, hdrop, hd⟩ := hfraction
    rw [number_of_fraction hdrop hd] at h ⊢
    -- the fraction ends in front of `back`, and so it begins there
    have hrest : rest = rest.takeWhile Char.isDigit ++ text ++ back := by
      rw [List.append_assoc, ← h, List.takeWhile_append_dropWhile]
    have hdigits : rest.dropWhile Char.isDigit = text ++ back := h
    have hfront : (cs ++ back).dropWhile Char.isDigit =
        '.' :: d :: (rest.takeWhile Char.isDigit ++ text) ++ back := by
      rw [hdrop]
      exact congrArg ('.' :: d :: ·) hrest
    rw [hrest] at hdigits
    obtain ⟨hdrop', htake⟩ := dropWhile_cut hfront
    obtain ⟨hrest', htake'⟩ := dropWhile_cut hdigits
    rw [number_of_fraction hdrop' hd, htake, hrest', ← htake', ← hrest, extend]
    exact congrArg (Munch.mk _ · _) h
  · have hinteger : ∀ d rest, (cs ++ back).dropWhile Char.isDigit = '.' :: d :: rest →
        d.isDigit = false := fun d rest hdrop => Bool.eq_false_iff.mpr fun hd => hfraction ⟨d, rest, hdrop, hd⟩
    rw [number_of_integer hinteger] at h ⊢
    have hdigits : (cs ++ back).dropWhile Char.isDigit = text ++ back := h
    obtain ⟨hdrop, htake⟩ := dropWhile_cut hdigits
    have hinteger' : ∀ d rest, cs.dropWhile Char.isDigit = '.' :: d :: rest → d.isDigit = false := by
      intro d rest hdot
      refine hinteger d (rest ++ back) ?_
      rw [hdigits, ← hdrop, hdot]
      rfl
    rw [number_of_integer hinteger', hdrop, htake, hdigits]
    rfl

theorem word_cut (h : (word c (cs ++ back)).rest = text ++ back) :
    word c (cs ++ back) = (word c cs).extend back := by
  have hdropped : (cs ++ back).dropWhile isWordPart = text ++ back := h
  obtain ⟨hdrop, htake⟩ := dropWhile_cut hdropped
  rw [word, word, htake, hdropped, hdrop]
  rfl

theorem comment_cut (h : (comment c (cs ++ back)).rest = text ++ back) :
    comment c (cs ++ back) = (comment c cs).extend back := by
  have hdropped : (cs ++ back).dropWhile (· != '\n') = text ++ back := h
  obtain ⟨hdrop, htake⟩ := dropWhile_cut hdropped
  rw [comment, comment, htake, hdropped, hdrop]
  rfl

theorem mark_cut (h : (mark c (cs ++ back)).rest = text ++ back) :
    mark c (cs ++ back) = (mark c cs).extend back := by
  cases cs with
  | cons d cs =>
    simp only [List.cons_append, mark]
    split
    · rfl
    · exact single_extend c (d :: cs) back
  | nil =>
    cases back with
    | nil => simp [extend]
    | cons d back =>
      simp only [List.nil_append, mark] at h ⊢
      split at h
      · have hlength := congrArg List.length h
        simp only [List.length_append, List.length_cons] at hlength
        omega
      · exact single_extend c [] (d :: back)

end Munch

/-- **The lexeme at the front of a text does not depend on what is cut off behind it.** -/
theorem munch_cut {c : Char} {cs text back : List Char}
    (h : (munch c (cs ++ back)).rest = text ++ back) :
    munch c (cs ++ back) = (munch c cs).extend back := by
  unfold munch at h ⊢
  by_cases hblank : isBlank c = true
  · simp only [if_pos hblank]
    rfl
  simp only [if_neg hblank] at h ⊢
  by_cases hquote : (c == '"') = true
  · simp only [if_pos hquote] at h ⊢
    exact Munch.quoted_cut h
  simp only [if_neg hquote] at h ⊢
  by_cases hdigit : c.isDigit = true
  · simp only [if_pos hdigit] at h ⊢
    exact Munch.number_cut h
  simp only [if_neg hdigit] at h ⊢
  by_cases hword : isWordStart c = true
  · simp only [if_pos hword] at h ⊢
    exact Munch.word_cut h
  simp only [if_neg hword] at h ⊢
  by_cases hcomment : (c == '/' && (cs ++ back).head? == some '/') = true
  · rw [if_pos hcomment] at h ⊢
    have hslash : (c == '/' && cs.head? == some '/') = true := by
      cases cs with
      | cons d cs => exact hcomment
      | nil =>
        -- the second slash would be cut off
        have hback : back.head? = some '/' := by simpa using (Bool.and_eq_true_iff.mp hcomment).2
        obtain ⟨back, rfl⟩ := List.head?_eq_some_iff.mp hback
        have hrest : ([] ++ '/' :: back).dropWhile (· != '\n') = text ++ '/' :: back := h
        obtain ⟨-, htake⟩ := dropWhile_cut hrest
        cases htake
    rw [if_pos hslash]
    exact Munch.comment_cut h
  · have hslash : ¬ (c == '/' && cs.head? == some '/') = true := by
      cases cs with
      | cons d cs => exact hcomment
      | nil => simp
    rw [if_neg hcomment] at h ⊢
    rw [if_neg hslash]
    exact Munch.mark_cut h

/-! ## From one scanner to another one -/

namespace Scanner

/-- The scanner `t` stands behind `s`, past `text`. -/
structure Past (s : Scanner) (text : List Char) (t : Scanner) : Prop where
  rest : s.rest = text ++ t.rest
  offset : t.offset = s.offset + byteLength text
  line : t.line = s.line + text.count '\n'
  finished : t.finished = s.finished

theorem Past.refl (s : Scanner) : s.Past [] s := ⟨rfl, rfl, rfl, rfl⟩

theorem Past.trans {s t u : Scanner} {text text' : List Char} (h : s.Past text t)
    (h' : t.Past text' u) : s.Past (text ++ text') u where
  rest := by rw [h.rest, h'.rest, List.append_assoc]
  offset := by rw [h'.offset, h.offset, byteLength_append, Nat.add_assoc]
  line := by rw [h'.line, h.line, List.count_append, Nat.add_assoc]
  finished := h'.finished.trans h.finished

theorem Past.unique {s t : Scanner} {text text' : List Char} (h : s.Past text t)
    (h' : s.Past text' t) : text = text' :=
  List.append_cancel_right (h.rest.symm.trans h'.rest)

/-- The scanner behind the lexeme at the front of its text, with the next number `id`. -/
def behindLexeme (s : Scanner) (c : Char) (cs : List Char) (id : TokenId) : Scanner :=
  { s.pass (munch c cs).taken (munch c cs).rest with nextId := id }

theorem past_behindLexeme {s : Scanner} {c : Char} {cs : List Char} (h : s.rest = c :: cs)
    (id : TokenId) : s.Past (munch c cs).taken (s.behindLexeme c cs id) :=
  ⟨h.trans (taken_append_rest c cs).symm, rfl, rfl, rfl⟩

/-- The token that the lexeme at the front of the text is. -/
def lexemeToken (s : Scanner) (c : Char) (cs : List Char) (kind : TokenKind) : Token :=
  s.token (s.behindLexeme c cs s.nextId) kind (munch c cs).taken

/-- The problem that the lexeme at the front of the text is. -/
def lexemeProblem (s : Scanner) (c : Char) (cs : List Char) (p : LexicalProblem) :
    Located LexicalProblem :=
  ⟨p, ⟨(s.behindLexeme c cs s.nextId).line, s.offset, (s.behindLexeme c cs s.nextId).offset⟩⟩

/-- On the way from one scanner to another one these items are yielded. -/
inductive Scans : Scanner → List Item → Scanner → Prop where
  | done {s} : Scans s [] s
  | dropped {s c cs items t} : s.rest = c :: cs → (munch c cs).lexeme = .dropped →
      Scans (s.behindLexeme c cs s.nextId) items t → Scans s items t
  | token {s c cs kind items t} : s.rest = c :: cs → (munch c cs).lexeme = .token kind →
      Scans (s.behindLexeme c cs (s.nextId + 1)) items t →
      Scans s (.ok (s.lexemeToken c cs kind) :: items) t
  | problem {s c cs p items t} : s.rest = c :: cs → (munch c cs).lexeme = .problem p →
      Scans (s.behindLexeme c cs s.nextId) items t →
      Scans s (.error (s.lexemeProblem c cs p) :: items) t

/-- **A scanner yields its items on the way to the end of its text**, and there the end itself. -/
theorem scans_items {s : Scanner} (hf : s.finished = false) :
    ∃ items t, Scans s items t ∧ t.rest = [] ∧ t.finished = false ∧
      s.items = items ++ [.ok (t.token t .endOfInput [])] := by
  generalize hn : s.rest.length = n
  induction n using Nat.strongRecOn generalizing s with
  | ind n ih =>
    cases hr : s.rest with
    | nil => exact ⟨[], s, .done, hr, hf, items_nil hf hr⟩
    | cons c cs =>
      have hlt : (munch c cs).rest.length < n := by
        rw [← hn, hr]
        exact length_rest_lt c cs
      have hitems := items_cons hf hr
      cases hm : (munch c cs).lexeme with
      | dropped =>
        obtain ⟨items, t, hscans, hrest, hfin, hbehind⟩ :=
          ih _ hlt (s := s.behindLexeme c cs s.nextId) hf rfl
        rw [hm] at hitems
        exact ⟨items, t, .dropped hr hm hscans, hrest, hfin, hitems.trans hbehind⟩
      | token kind =>
        obtain ⟨items, t, hscans, hrest, hfin, hbehind⟩ :=
          ih _ hlt (s := s.behindLexeme c cs (s.nextId + 1)) hf rfl
        rw [hm] at hitems
        exact ⟨_, t, .token hr hm hscans, hrest, hfin, hitems.trans (congrArg _ hbehind)⟩
      | problem p =>
        obtain ⟨items, t, hscans, hrest, hfin, hbehind⟩ :=
          ih _ hlt (s := s.behindLexeme c cs s.nextId) hf rfl
        rw [hm] at hitems
        exact ⟨_, t, .problem hr hm hscans, hrest, hfin, hitems.trans (congrArg _ hbehind)⟩

theorem exists_cut {s t : Scanner} {c : Char} {cs text : List Char} {id : TokenId}
    (hr : s.rest = c :: cs) (hp : (s.behindLexeme c cs id).Past text t) :
    ∃ cs', (munch c cs).taken ++ text = c :: cs' ∧ (munch c cs').lexeme = (munch c cs).lexeme ∧
      (munch c cs').taken = (munch c cs).taken ∧
      ∀ whole id, ({ s with rest := whole } : Scanner).behindLexeme c cs' id =
        { s.behindLexeme c cs id with rest := text } := by
  have hall : (munch c cs).taken ++ text ++ t.rest = c :: cs := by
    rw [List.append_assoc, ← hp.rest]
    exact taken_append_rest c cs
  obtain ⟨cs', hfront⟩ : ∃ cs', (munch c cs).taken ++ text = c :: cs' := by
    cases htaken : (munch c cs).taken with
    | nil => exact absurd htaken (taken_ne_nil c cs)
    | cons d ds =>
      rw [htaken] at hall
      obtain ⟨rfl, -⟩ := List.cons.inj hall
      exact ⟨_, rfl⟩
  rw [hfront] at hall
  obtain rfl : cs' ++ t.rest = cs := (List.cons.inj hall).2
  have hcut : munch c (cs' ++ t.rest) = (munch c cs').extend t.rest := munch_cut hp.rest
  have hrest : (munch c (cs' ++ t.rest)).rest = text ++ t.rest := hp.rest
  rw [hcut] at hrest
  have hbehind : (munch c cs').rest = text := List.append_cancel_right hrest
  refine ⟨cs', hfront, by rw [hcut]; rfl, by rw [hcut]; rfl, fun whole id => ?_⟩
  simp [behindLexeme, pass, hcut, Munch.extend, hbehind]

namespace Scans

variable {s t : Scanner} {items more : List Item}

theorem past (h : Scans s items t) : ∃ text, s.Past text t := by
  induction h with
  | done => exact ⟨[], .refl _⟩
  | dropped hr _ _ ih | token hr _ _ ih | problem hr _ _ ih =>
    obtain ⟨text, htext⟩ := ih
    exact ⟨_, (past_behindLexeme hr _).trans htext⟩

theorem items_eq (h : Scans s items t) (hf : s.finished = false) : s.items = items ++ t.items := by
  induction h with
  | done => rfl
  | dropped hr hm _ ih =>
    rw [items_cons hf hr, hm]
    exact ih hf
  | token hr hm _ ih | problem hr hm _ ih =>
    rw [items_cons hf hr, hm]
    exact congrArg (_ :: ·) (ih hf)

/-- **The items on the way through a text do not depend on what stands behind it.** -/
theorem cut (h : Scans s items t) {text : List Char} (hp : s.Past text t) :
    Scans { s with rest := text } items { t with rest := [] } := by
  induction h generalizing text with
  | @done s =>
    obtain rfl : text = [] := List.append_left_eq_self.mp hp.rest.symm
    exact .done
  | dropped hr hm hrest ih =>
    obtain ⟨text', hp'⟩ := hrest.past
    obtain rfl := ((past_behindLexeme hr _).trans hp').unique hp
    obtain ⟨cs', hfront, hlexeme, -, hbehind⟩ := exists_cut hr hp'
    exact .dropped hfront (hlexeme.trans hm) (hbehind _ _ ▸ ih hp')
  | @token s c cs kind items t hr hm hrest ih =>
    obtain ⟨text', hp'⟩ := hrest.past
    obtain rfl := ((past_behindLexeme hr _).trans hp').unique hp
    obtain ⟨cs', hfront, hlexeme, htaken, hbehind⟩ := exists_cut hr hp'
    have hitem : s.lexemeToken c cs kind =
        ({ s with rest := (munch c cs).taken ++ text' } : Scanner).lexemeToken c cs' kind := by
      rw [lexemeToken, lexemeToken, hbehind, htaken]
      rfl
    rw [hitem]
    exact .token hfront (hlexeme.trans hm) (hbehind _ _ ▸ ih hp')
  | @problem s c cs p items t hr hm hrest ih =>
    obtain ⟨text', hp'⟩ := hrest.past
    obtain rfl := ((past_behindLexeme hr _).trans hp').unique hp
    obtain ⟨cs', hfront, hlexeme, -, hbehind⟩ := exists_cut hr hp'
    have hitem : s.lexemeProblem c cs p =
        ({ s with rest := (munch c cs).taken ++ text' } : Scanner).lexemeProblem c cs' p := by
      simp [lexemeProblem, hbehind]
    rw [hitem]
    exact .problem hfront (hlexeme.trans hm) (hbehind _ _ ▸ ih hp')

theorem append {m : Scanner} (h : Scans s items m) (h' : Scans m more t) :
    Scans s (items ++ more) t := by
  induction h with
  | done => exact h'
  | dropped hr hm _ ih => exact .dropped hr hm (ih h')
  | token hr hm _ ih => exact .token hr hm (ih h')
  | problem hr hm _ ih => exact .problem hr hm (ih h')

theorem unappend (h : Scans s (items ++ more) t) : ∃ m, Scans s items m ∧ Scans m more t := by
  generalize hi : items ++ more = all at h
  induction h generalizing items with
  | @done s =>
    obtain ⟨rfl, rfl⟩ := List.append_eq_nil_iff.mp hi
    exact ⟨s, .done, .done⟩
  | dropped hr hm _ ih =>
    obtain ⟨m, hitems, hmore⟩ := ih hi
    exact ⟨m, .dropped hr hm hitems, hmore⟩
  | @token s _ _ _ _ _ hr hm hrest ih =>
    cases items with
    | nil =>
      obtain rfl := (List.nil_append _).symm.trans hi
      exact ⟨s, .done, .token hr hm hrest⟩
    | cons item items =>
      obtain ⟨rfl, htail⟩ := List.cons.inj hi
      obtain ⟨m, hitems, hmore⟩ := ih htail
      exact ⟨m, .token hr hm hitems, hmore⟩
  | @problem s _ _ _ _ _ hr hm hrest ih =>
    cases items with
    | nil =>
      obtain rfl := (List.nil_append _).symm.trans hi
      exact ⟨s, .done, .problem hr hm hrest⟩
    | cons item items =>
      obtain ⟨rfl, htail⟩ := List.cons.inj hi
      obtain ⟨m, hitems, hmore⟩ := ih htail
      exact ⟨m, .problem hr hm hitems, hmore⟩

theorem exists_lexeme {token : Token} (h : Scans s (.ok token :: items) t) :
    ∃ s' c cs kind, Scans s [] s' ∧ s'.rest = c :: cs ∧ (munch c cs).lexeme = .token kind ∧
      token = s'.lexemeToken c cs kind ∧ Scans (s'.behindLexeme c cs (s'.nextId + 1)) items t := by
  generalize hi : (.ok token :: items : List Item) = all at h
  induction h with
  | done | problem => cases hi
  | dropped hr hm _ ih =>
    obtain ⟨s', c, cs, kind, hskipped, hs'⟩ := ih hi
    exact ⟨s', c, cs, kind, .dropped hr hm hskipped, hs'⟩
  | @token s c cs kind _ _ hr hm hrest =>
    obtain ⟨hitem, rfl⟩ := List.cons.inj hi
    exact ⟨s, c, cs, kind, .done, hr, hm, Except.ok.inj hitem, hrest⟩

/-- **Items from the midst of a text** are yielded on the way from the beginning of the first one to the
end of the last one. -/
theorem slice {front back : List Item} {first last : Token}
    (h : Scans s (front ++ items ++ back) t) (hfirst : items.head? = some (.ok first))
    (hlast : items.getLast? = some (.ok last)) :
    ∃ before text s' m, s.Past before s' ∧ s'.Past text m ∧ Scans s' items m ∧
      s'.offset = first.position.start ∧ s'.nextId = first.id ∧ m.offset = last.position.stop ∧
      Scans m back t := by
  rw [List.append_assoc] at h
  obtain ⟨k, hfront, h⟩ := h.unappend
  obtain ⟨init, rfl⟩ := List.getLast?_eq_some_iff.mp hlast
  rw [List.append_assoc] at h
  obtain ⟨k₁, hinit, h⟩ := h.unappend
  -- the way ends behind the lexeme of the last token
  obtain ⟨e, c, cs, kind, hskipped, hr, hm, rfl, hback⟩ := h.exists_lexeme
  have hend : Scans k (init ++ [.ok (e.lexemeToken c cs kind)]) (e.behindLexeme c cs (e.nextId + 1)) :=
    hinit.append (hskipped.append (.token hr hm .done))
  -- and it begins in front of the lexeme of the first one
  obtain ⟨tail, htail⟩ := List.head?_eq_some_iff.mp hfirst
  rw [htail] at hend ⊢
  obtain ⟨b, c', cs', kind', hbefore, hr', hm', rfl, hrest⟩ := hend.exists_lexeme
  have hseg := Scans.token hr' hm' hrest
  obtain ⟨before, hpast⟩ := (hfront.append hbefore).past
  obtain ⟨text, htext⟩ := hseg.past
  exact ⟨before, text, b, _, hpast, htext, hseg, rfl, rfl, rfl, hback⟩

end Scans

end Scanner

end Lox
