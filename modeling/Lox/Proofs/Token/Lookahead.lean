import Lox.Proofs.Token.Lexicon

/-!
# What the scanner sees behind a lexeme

Behind a lexeme the scanner looks ahead at two characters at most, and all characters that begin a word
are the same to it. So a lexeme stays what it is when a word behind it is written in another way.

* `BeginsAlike`: two texts are equal, or equal up to a word of each of them;
* `Munch.number_alike`, `Munch.word_alike`, …: the lexemes of every kind in front of such texts;
* **`munch_alike`**: the lexeme in front of such texts.
-/

namespace Lox

/-- The texts are equal, or equal up to a place where a word begins in both of them. -/
inductive BeginsAlike : List Char → List Char → Prop where
  | refl {text} : BeginsAlike text text
  | word {front c d cs ds} : isWordStart c = true → isWordStart d = true →
      BeginsAlike (front ++ c :: cs) (front ++ d :: ds)

namespace BeginsAlike

variable {text text' : List Char} {p : Char → Bool}

theorem cons (h : BeginsAlike text text') (c : Char) : BeginsAlike (c :: text) (c :: text') := by
  cases h with
  | refl => exact .refl
  | @word front _ _ _ _ hc hd => exact @word (c :: front) _ _ _ _ hc hd

theorem append (h : BeginsAlike text text') (front : List Char) :
    BeginsAlike (front ++ text) (front ++ text') := by
  induction front with
  | nil => exact h
  | cons c front ih => exact ih.cons c

theorem head (h : BeginsAlike text text')
    (hp : ∀ c d, isWordStart c = true → isWordStart d = true → p c = p d)
    (ht : ∀ c ∈ text.head?, p c = false) : ∀ c ∈ text'.head?, p c = false := by
  cases h with
  | refl => exact ht
  | @word front c d cs ds hc hd =>
    cases front with
    | nil =>
      rintro _ ⟨⟩
      rw [← hp c d hc hd]
      exact ht c rfl
    | cons b front => exact ht

theorem pair {a b : Char} {rest : List Char} (h : BeginsAlike text (a :: b :: rest))
    (ha : isWordStart a = false) (hb : isWordStart b = false) : ∃ rest', text = a :: b :: rest' := by
  generalize htext : a :: b :: rest = text' at h
  cases h with
  | refl => exact ⟨rest, htext.symm⟩
  | @word front c d cs ds hc hd =>
    cases front with
    | nil =>
      obtain ⟨rfl, -⟩ := List.cons.inj htext
      rw [ha] at hd
      cases hd
    | cons a' front =>
      obtain ⟨rfl, htail⟩ := List.cons.inj htext
      cases front with
      | nil =>
        obtain ⟨rfl, -⟩ := List.cons.inj htail
        rw [hb] at hd
        cases hd
      | cons b' front =>
        obtain ⟨rfl, -⟩ := List.cons.inj htail
        exact ⟨_, rfl⟩

end BeginsAlike

/-! ## Classes of characters -/

theorem isWordPart_of_isWordStart_eq {c d : Char} (hc : isWordStart c = true)
    (hd : isWordStart d = true) : isWordPart c = isWordPart d := by
  rw [isWordPart_of_isWordStart hc, isWordPart_of_isWordStart hd]

theorem not_isDigit_of_isWordStart {c : Char} (h : isWordStart c = true) : c.isDigit = false := by
  by_contra hd
  rw [Bool.not_eq_false, Lexicon.isDigit_iff] at hd
  rw [Lexicon.isWordStart_iff] at h
  obtain ⟨hlow, hhigh⟩ := hd
  rcases h with ⟨h, -⟩ | ⟨h, -⟩ | rfl
  · exact absurd (le_trans h hhigh) (by decide)
  · exact absurd (le_trans h hhigh) (by decide)
  · exact absurd hhigh (by decide)

theorem ne_of_isWordStart {c d : Char} (hc : isWordStart c = true) (hd : isWordStart d = false) :
    c ≠ d := by
  rintro rfl
  rw [hc] at hd
  cases hd

/-! ## Rows of characters -/

section Rows

variable {p : Char → Bool} {xs rest rest' : List Char}

theorem dropWhile_alike (h : (xs ++ rest).dropWhile p = rest) (halike : BeginsAlike rest rest')
    (hp : ∀ c d, isWordStart c = true → isWordStart d = true → p c = p d) :
    (xs ++ rest).takeWhile p = xs ∧ (xs ++ rest').takeWhile p = xs ∧
      (xs ++ rest').dropWhile p = rest' := by
  have hfront : (xs ++ rest).dropWhile p = [] ++ rest := h
  obtain ⟨hdrop, htake⟩ := dropWhile_cut hfront
  have hxs : ∀ c ∈ xs, p c = true := List.dropWhile_eq_nil_iff.mp hdrop
  have hself : xs.takeWhile p = xs := List.takeWhile_eq_self_iff.mpr hxs
  have hhead : ∀ c ∈ rest.head?, p c = false := by
    intro c hc
    have hstop := List.head?_dropWhile_not p (xs ++ rest)
    rw [h, Option.mem_def.mp hc] at hstop
    exact hstop
  have hhead' := halike.head hp hhead
  refine ⟨htake.trans hself, ?_, ?_⟩
  · rw [List.takeWhile_append_of_pos hxs]
    cases rest' with
    | nil => exact List.append_nil xs
    | cons c cs => rw [List.takeWhile_cons_of_neg (by simp [hhead' c rfl]), List.append_nil]
  · rw [List.dropWhile_append_of_pos hxs]
    cases rest' with
    | nil => rfl
    | cons c cs => exact List.dropWhile_cons_of_neg (by simp [hhead' c rfl])

end Rows

/-! ## Lexemes -/

namespace Munch

variable {c : Char} {xs rest rest' : List Char} (halike : BeginsAlike rest rest')

include halike

theorem word_alike (h : (word c (xs ++ rest)).rest = rest) :
    word c (xs ++ rest') = ⟨c :: xs, rest', (word c (xs ++ rest)).lexeme⟩ := by
  obtain ⟨htake, htake', hdrop'⟩ :=
    dropWhile_alike (p := isWordPart) h halike fun _ _ => isWordPart_of_isWordStart_eq
  rw [word, word, htake', hdrop', htake]

theorem comment_alike (h : (comment c (xs ++ rest)).rest = rest) :
    comment c (xs ++ rest') = ⟨c :: xs, rest', .dropped⟩ := by
  obtain ⟨-, htake', hdrop'⟩ := dropWhile_alike (p := (· != '\n')) h halike fun c d hc hd => by
    rw [bne_iff_ne.mpr (ne_of_isWordStart hc (by decide)),
      bne_iff_ne.mpr (ne_of_isWordStart hd (by decide))]
  rw [comment, htake', hdrop']

theorem number_alike (h : (number c (xs ++ rest)).rest = rest) :
    number c (xs ++ rest') = ⟨c :: xs, rest', (number c (xs ++ rest)).lexeme⟩ := by
  have hdigit (a b : Char) (ha : isWordStart a = true) (hb : isWordStart b = true) :
      a.isDigit = b.isDigit := by
    rw [not_isDigit_of_isWordStart ha, not_isDigit_of_isWordStart hb]
  by_cases hfraction : ∃ d more, (xs ++ rest).dropWhile Char.isDigit = '.' :: d :: more ∧
      d.isDigit = true
  · obtain ⟨d, more, hdrop, hd⟩ := hfraction
    rw [number_of_fraction hdrop hd] at h ⊢
    -- the fraction stands in front of `rest`
    obtain ⟨digits, rfl⟩ : ∃ digits, more = digits ++ rest :=
      ⟨_, (List.takeWhile_append_dropWhile.symm.trans (congrArg _ h))⟩
    have hfront : (xs ++ rest).dropWhile Char.isDigit = ('.' :: d :: digits) ++ rest := hdrop
    obtain ⟨hdrop', htake⟩ := dropWhile_cut hfront
    obtain ⟨hdigits, hdigits', hrest'⟩ := dropWhile_alike h halike hdigit
    have hne : xs.dropWhile Char.isDigit ≠ [] := by rw [hdrop']; exact List.cons_ne_nil _ _
    have hback : (xs ++ rest').dropWhile Char.isDigit = '.' :: d :: (digits ++ rest') := by
      rw [dropWhile_append_of_dropWhile hne, hdrop']
      rfl
    have hxs : xs.takeWhile Char.isDigit ++ '.' :: d :: digits = xs := by
      rw [← hdrop', List.takeWhile_append_dropWhile]
    rw [number_of_fraction hback hd, takeWhile_append_of_dropWhile hne, htake, hdigits, hdigits',
      hrest', hxs]
  · have hinteger : ∀ d more, (xs ++ rest).dropWhile Char.isDigit = '.' :: d :: more →
        d.isDigit = false :=
      fun d more hdrop => Bool.eq_false_iff.mpr fun hd => hfraction ⟨d, more, hdrop, hd⟩
    rw [number_of_integer hinteger] at h ⊢
    obtain ⟨hdigits, hdigits', hrest'⟩ := dropWhile_alike h halike hdigit
    have hinteger' : ∀ d more, (xs ++ rest').dropWhile Char.isDigit = '.' :: d :: more →
        d.isDigit = false := by
      intro d more hdot
      rw [hrest'] at hdot
      by_contra hd
      rw [Bool.not_eq_false] at hd
      have hword : isWordStart d = false := by
        by_contra hd'
        rw [not_isDigit_of_isWordStart (Bool.not_eq_false _ ▸ hd')] at hd
        cases hd
      obtain ⟨more', hmore⟩ := (hdot ▸ halike).pair (by decide) hword
      rw [hinteger d more' (by rw [← hmore]; exact h)] at hd
      cases hd
    rw [number_of_integer hinteger', hdigits, hdigits', hrest']

theorem quoted_alike (h : (quoted c (xs ++ rest)).rest = rest) :
    quoted c (xs ++ rest') = ⟨c :: xs, rest', (quoted c (xs ++ rest)).lexeme⟩ := by
  have hcut : quoted c (xs ++ rest) = (quoted c xs).extend rest :=
    quoted_cut (h.trans (List.nil_append rest).symm)
  have hlexeme : (quoted c (xs ++ rest)).lexeme = (quoted c xs).lexeme := by rw [hcut]; rfl
  have hrest : (quoted c xs).rest = [] := by
    rw [hcut] at h
    exact List.append_left_eq_self.mp h
  have htaken := quoted_append c xs
  rw [hrest, List.append_nil] at htaken
  rw [hlexeme]
  by_cases hopen : (quoted c xs).lexeme = .problem .unterminatedString
  · -- a string without an end takes the whole text
    obtain rfl : rest = [] := by
      rw [← hlexeme] at hopen
      rw [← h]
      unfold quoted at hopen ⊢
      split
      · rfl
      · rename_i hclose
        rw [hclose] at hopen
        cases hopen
    obtain rfl : [] = rest' := by
      generalize hnil : ([] : List Char) = text at halike
      cases halike with
      | refl => rfl
      | word => cases List.append_eq_nil_iff.mp hnil.symm |>.2
    rw [List.append_nil, ← htaken, ← hrest]
  · rw [quoted_extend c xs rest' hopen, extend, hrest, htaken, List.nil_append]

theorem mark_alike (h : (mark c (xs ++ rest)).rest = rest) :
    mark c (xs ++ rest') = ⟨c :: xs, rest', (mark c (xs ++ rest)).lexeme⟩ := by
  have hsingle (cs : List Char) : single c cs = ⟨[c], cs, (single c rest).lexeme⟩ := by
    unfold single
    cases Punct.ofChar? c <;> rfl
  have hlong {d : Char} {cs : List Char} (hd : (d :: cs) ++ rest = rest) : False := by
    have hlength := congrArg List.length hd
    simp only [List.length_append, List.length_cons] at hlength
    omega
  cases xs with
  | cons d xs =>
    simp only [List.cons_append, mark] at h ⊢
    cases hp : Punct.ofPair? c d with
    | some p =>
      rw [hp] at h
      have hxs : xs = [] := List.append_left_eq_self.mp h
      rw [hxs]
      rfl
    | none =>
      rw [hp, hsingle] at h
      exact (hlong h).elim
  | nil =>
    have hmark (cs : List Char) (hcs : ∀ d ∈ cs.head?, Punct.ofPair? c d = none) :
        mark c cs = single c cs := by
      cases cs with
      | nil => rfl
      | cons d cs => rw [mark, hcs d rfl]
    have hnone : ∀ d ∈ rest.head?, (Punct.ofPair? c d).isSome = false := by
      intro d hd
      obtain ⟨cs, rfl⟩ := List.head?_eq_some_iff.mp hd
      rw [List.nil_append, mark] at h
      cases hp : Punct.ofPair? c d with
      | none => rfl
      | some p =>
        rw [hp] at h
        have hlength := congrArg List.length h
        simp at hlength
    have hnone' := halike.head (p := fun d => (Punct.ofPair? c d).isSome) (fun a b ha hb => by
      have hequal {e : Char} (he : isWordStart e = true) : Punct.ofPair? c e = none := by
        unfold Punct.ofPair?
        split <;> first | rfl | exact absurd rfl (ne_of_isWordStart he (by decide))
      rw [hequal ha, hequal hb]) hnone
    have hback {cs : List Char} (hcs : ∀ d ∈ cs.head?, (Punct.ofPair? c d).isSome = false) :
        mark c cs = ⟨[c], cs, (single c rest).lexeme⟩ :=
      (hmark cs fun d hd => Option.not_isSome_iff_eq_none.mp (by simp [hcs d hd])).trans (hsingle cs)
    rw [List.nil_append, List.nil_append, hback hnone', hback hnone]

end Munch

/-- **A lexeme stays what it is when a word behind it is written in another way.** -/
theorem munch_alike {c : Char} {cs taken rest rest' : List Char} {lexeme : Lexeme}
    (h : munch c cs = ⟨taken, rest, lexeme⟩) (halike : BeginsAlike rest rest') :
    ∃ cs', taken ++ rest' = c :: cs' ∧ munch c cs' = ⟨taken, rest', lexeme⟩ := by
  have hall := taken_append_rest c cs
  rw [h] at hall
  obtain ⟨xs, rfl⟩ : ∃ xs, taken = c :: xs := by
    cases taken with
    | nil =>
      have hne := taken_ne_nil c cs
      rw [h] at hne
      exact absurd rfl hne
    | cons d xs =>
      obtain ⟨rfl, -⟩ := List.cons.inj hall
      exact ⟨xs, rfl⟩
  obtain rfl : xs ++ rest = cs := (List.cons.inj hall).2
  refine ⟨xs ++ rest', rfl, ?_⟩
  have hrest : (munch c (xs ++ rest)).rest = rest := by rw [h]
  have hlexeme : (munch c (xs ++ rest)).lexeme = lexeme := by rw [h]
  rw [← hlexeme]
  clear h hall hlexeme
  unfold munch at hrest ⊢
  by_cases hblank : isBlank c = true
  · simp only [if_pos hblank] at hrest ⊢
    rw [List.append_left_eq_self.mp hrest]
    rfl
  simp only [if_neg hblank] at hrest ⊢
  by_cases hquote : (c == '"') = true
  · simp only [if_pos hquote] at hrest ⊢
    exact Munch.quoted_alike halike hrest
  simp only [if_neg hquote] at hrest ⊢
  by_cases hdigit : c.isDigit = true
  · simp only [if_pos hdigit] at hrest ⊢
    exact Munch.number_alike halike hrest
  simp only [if_neg hdigit] at hrest ⊢
  by_cases hword : isWordStart c = true
  · simp only [if_pos hword] at hrest ⊢
    exact Munch.word_alike halike hrest
  simp only [if_neg hword] at hrest ⊢
  by_cases hcomment : (c == '/' && (xs ++ rest).head? == some '/') = true
  · rw [if_pos hcomment] at hrest ⊢
    have hslash : (c == '/' && (xs ++ rest').head? == some '/') = true := by
      cases xs with
      | cons d xs => exact hcomment
      | nil =>
        -- a comment is longer than its first slash
        have hhead : rest.head? = some '/' := by simpa using (Bool.and_eq_true_iff.mp hcomment).2
        obtain ⟨back, rfl⟩ := List.head?_eq_some_iff.mp hhead
        have hline : ([] ++ '/' :: back).dropWhile (· != '\n') = [] ++ '/' :: back := hrest
        obtain ⟨-, htake⟩ := dropWhile_cut hline
        cases htake
    rw [if_pos hslash]
    exact Munch.comment_alike halike hrest
  · rw [if_neg hcomment] at hrest ⊢
    have hslash : ¬ (c == '/' && (xs ++ rest').head? == some '/') = true := by
      cases xs with
      | cons d xs => exact hcomment
      | nil =>
        intro hslash
        obtain ⟨hc, hhead⟩ := Bool.and_eq_true_iff.mp hslash
        rw [hc, Bool.true_and] at hcomment
        have hnot := halike.head (p := (· == '/')) (fun a b ha hb => by
            rw [beq_false_of_ne (ne_of_isWordStart ha (by decide)),
              beq_false_of_ne (ne_of_isWordStart hb (by decide))]) fun d hd => by
          rw [Option.mem_def] at hd
          simpa [hd] using hcomment
        have hslash' := hnot '/' (eq_of_beq hhead)
        cases hslash'
    rw [if_neg hslash]
    exact Munch.mark_alike halike hrest

end Lox
