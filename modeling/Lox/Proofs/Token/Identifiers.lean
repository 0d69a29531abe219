import Lox.Proofs.Syntax.Namings
import Lox.Proofs.Token.Scans

/-!
# The identifiers of a text

* `Token.IsRead`: a token is the lexeme at its place, `isRead_tokens`: every token of a text is;
* `isName_of_lexeme`: a token that is spelled like an identifier is one;
* **`pairwise_names`**: two identifiers never touch.
-/

namespace Lox

/-! ## Lexemes at their places -/

/-- The token is the lexeme that begins with `c` in front of `cs`, behind `front`. -/
structure Token.IsRead (t : Token) (front : List Char) (c : Char) (cs : List Char) : Prop where
  lexeme : (munch c cs).lexeme = .token t.kind
  spelling : t.lexeme = String.ofList (munch c cs).taken
  start : t.position.start = byteLength front
  stop : t.position.stop = byteLength (front ++ (munch c cs).taken)

/-- Every token of a text but its end is the lexeme at its place. -/
theorem isRead_tokens {source : String} {t : Token} (h : t ∈ tokens source) :
    t.kind = .endOfInput ∧ t.lexeme = "" ∨
      ∃ front c cs, source.toList = front ++ c :: cs ∧ t.IsRead front c cs := by
  obtain ⟨items, e, hscans, -, -, hitems⟩ := Scanner.scans_items (s := .ofString source) rfl
  have hall : scan source = items ++ [.ok (e.token e .endOfInput [])] := hitems
  rw [mem_tokens, hall, List.mem_append, List.mem_singleton] at h
  obtain hitem | hend := h
  · obtain ⟨before, behind, rfl⟩ := List.append_of_mem hitem
    obtain ⟨m, hbefore, hbehind⟩ := hscans.unappend
    obtain ⟨s, c, cs, kind, hskipped, hrest, hlexeme, rfl, -⟩ := hbehind.exists_lexeme
    obtain ⟨front, hfront⟩ := (hbefore.append hskipped).past
    have hoffset : s.offset = byteLength front := hfront.offset.trans (Nat.zero_add _)
    refine .inr ⟨front, c, cs, hfront.rest.trans (congrArg _ hrest), hlexeme, rfl, hoffset, ?_⟩
    rw [byteLength_append, ← hoffset]
    rfl
  · cases hend
    exact .inl ⟨rfl, rfl⟩

/-! ## Words -/

theorem isWordPart_of_isWordStart {c : Char} (h : isWordStart c = true) : isWordPart c = true := by
  unfold isWordStart at h
  unfold isWordPart Char.isAlphanum
  rw [Bool.or_eq_true] at h ⊢
  exact h.imp_left fun h => by rw [h, Bool.true_or]

theorem eq_of_isBlank {c : Char} (h : isBlank c = true) : c = ' ' ∨ c = '\t' ∨ c = '\r' ∨ c = '\n' := by
  simpa [isBlank, or_assoc] using h

theorem munch_word {c : Char} {cs : List Char} (h : isWordStart c = true) :
    munch c cs = .word c cs := by
  have hblank : ¬ isBlank c = true := by
    intro hb
    rcases eq_of_isBlank hb with rfl | rfl | rfl | rfl <;> revert h <;> decide
  have hquote : ¬ (c == '"') = true := by
    intro hq
    obtain rfl : c = '"' := by simpa using hq
    revert h
    decide
  have hdigit : ¬ c.isDigit = true := by
    intro hd
    have hletter : c.isAlpha = true ∨ c = '_' := by simpa [isWordStart] using h
    obtain hletter | rfl := hletter
    · delta Char.isAlpha Char.isUpper Char.isLower at hletter
      delta Char.isDigit at hd
      simp only [Bool.or_eq_true, Bool.and_eq_true, decide_eq_true_eq, ge_iff_le,
        UInt32.le_iff_toNat_le] at hletter hd
      have : 'A'.val.toNat = 65 := rfl
      have : 'a'.val.toNat = 97 := rfl
      have : '9'.val.toNat = 57 := rfl
      omega
    · revert hd
      decide
  rw [munch, if_neg hblank, if_neg hquote, if_neg hdigit, if_pos h]

theorem munch_identifier {c : Char} {cs : List Char} (h : (munch c cs).lexeme = .token .identifier) :
    isWordStart c = true := by
  by_contra hword
  unfold munch at h
  rw [if_neg hword] at h
  split at h
  · cases h
  split at h
  · unfold Munch.quoted at h
    split at h <;> cases h
  split at h
  · unfold Munch.number at h
    repeat' split at h
    all_goals cases h
  split at h
  · cases h
  · unfold Munch.mark Munch.single at h
    repeat' split at h
    all_goals cases h

namespace Token.IsRead

variable {t : Token} {front cs : List Char} {c : Char}

theorem exists_cons (h : t.IsRead front c cs) : ∃ rest, t.lexeme = String.ofList (c :: rest) := by
  have hall := taken_append_rest c cs
  cases htaken : (munch c cs).taken with
  | nil => exact absurd htaken (taken_ne_nil c cs)
  | cons d ds =>
    rw [htaken] at hall
    obtain ⟨rfl, -⟩ := List.cons.inj hall
    exact ⟨ds, by rw [h.spelling, htaken]⟩

theorem kind_of_word (h : t.IsRead front c cs) (hc : isWordStart c = true) :
    t.kind = Munch.wordKind t.lexeme := by
  have hlexeme := h.lexeme
  rw [munch_word hc] at hlexeme
  rw [h.spelling, munch_word hc]
  exact (Lexeme.token.inj hlexeme).symm

end Token.IsRead

section

variable {source : String} {t u : Token}

theorem isRead_of_isName (ht : t ∈ tokens source) (hname : t.IsName) :
    ∃ front c cs, source.toList = front ++ c :: cs ∧ isWordStart c = true ∧ t.IsRead front c cs := by
  obtain ⟨hend, -⟩ | ⟨front, c, cs, hsource, hread⟩ := isRead_tokens ht
  · rw [hname] at hend
    cases hend
  · exact ⟨front, c, cs, hsource, munch_identifier (hread.lexeme.trans (congrArg _ hname)), hread⟩

/-- **A token that is spelled like an identifier is one.** -/
theorem isName_of_lexeme (ht : t ∈ tokens source) (hu : u ∈ tokens source) (hname : t.IsName)
    (heq : u.lexeme = t.lexeme) : u.IsName := by
  obtain ⟨_, c, _, -, hc, hread⟩ := isRead_of_isName ht hname
  obtain ⟨rest, hrest⟩ := hread.exists_cons
  obtain ⟨-, hempty⟩ | ⟨_, d, _, -, hread'⟩ := isRead_tokens hu
  · rw [heq, hrest] at hempty
    exact absurd (String.ofList_injective hempty) (List.cons_ne_nil _ _)
  · obtain ⟨rest', hrest'⟩ := hread'.exists_cons
    have hchars := String.ofList_injective (hrest'.symm.trans (heq.trans hrest))
    obtain ⟨rfl, -⟩ := List.cons.inj hchars
    have hkind := (hread'.kind_of_word hc).trans (heq ▸ (hread.kind_of_word hc).symm)
    exact hkind.trans hname

theorem eq_of_byteLength {front front' back back' : List Char} (h : front ++ back = front' ++ back')
    (hbytes : byteLength front = byteLength front') : front = front' := by
  induction front generalizing front' with
  | nil =>
    cases front' with
    | nil => rfl
    | cons c front' =>
      have := byteLength_pos (List.cons_ne_nil c front')
      rw [← hbytes] at this
      exact absurd this (Nat.lt_irrefl 0)
  | cons c front ih =>
    cases front' with
    | nil =>
      have := byteLength_pos (List.cons_ne_nil c front)
      rw [hbytes] at this
      exact absurd this (Nat.lt_irrefl 0)
    | cons d front' =>
      obtain ⟨rfl, htail⟩ := List.cons.inj h
      rw [byteLength, byteLength, Nat.add_left_cancel_iff] at hbytes
      rw [ih htail hbytes]

/-- Behind an identifier there is no other one: a word is as long as it can be. -/
theorem stop_ne_start (ht : t ∈ tokens source) (hu : u ∈ tokens source) (hname : t.IsName)
    (hname' : u.IsName) : t.position.stop ≠ u.position.start := by
  intro htouch
  obtain ⟨front, c, cs, hsource, hc, hread⟩ := isRead_of_isName ht hname
  obtain ⟨front', d, ds, hsource', hd, hread'⟩ := isRead_of_isName hu hname'
  rw [hread.stop, hread'.start] at htouch
  have hsplit : (front ++ (munch c cs).taken) ++ (munch c cs).rest = front' ++ d :: ds := by
    rw [List.append_assoc, taken_append_rest, ← hsource, hsource']
  obtain rfl := eq_of_byteLength hsplit htouch
  have hrest : cs.dropWhile isWordPart = d :: ds := by
    have := List.append_cancel_left hsplit
    rwa [munch_word hc] at this
  have hstop := List.head?_dropWhile_not isWordPart cs
  rw [hrest, List.head?_cons] at hstop
  exact absurd (isWordPart_of_isWordStart hd) (Bool.eq_false_iff.mp hstop)

/-- **Identifiers never touch**: each of them ends in front of the beginning of the next one. -/
theorem pairwise_names (source : String) :
    (names (tokens source)).Pairwise fun t u => t.position.stop < u.position.start := by
  refine ((ordered_tokens source).sublist List.filter_sublist).imp_of_mem fun {t u} ht hu hle => ?_
  obtain ⟨ht, hname⟩ := mem_names.mp ht
  obtain ⟨hu, hname'⟩ := mem_names.mp hu
  exact Nat.lt_of_le_of_ne hle (stop_ne_start ht hu hname hname')

end

end Lox
