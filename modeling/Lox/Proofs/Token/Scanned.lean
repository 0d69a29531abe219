import Lox.Proofs.Syntax.Cursor
import Lox.Syntax.Program

/-!
# The tokens of a text

* `Scanner.Yields`: what one step of the scanner may yield, `Scanner.yields_next?`: it does;
* **`ended_tokens`**, **`spelled_tokens`**, **`ids_tokens`**: the tokens of a text end with its end
  and nowhere before, each is written the way its kind is written, and they are numbered in their
  order;
* **`sound_start`**: the parser starts in front of all of them.
-/

namespace Lox

/-! ## Lexemes -/

/-- A token of this kind may be written with these characters. -/
def TokenKind.Fits (kind : TokenKind) (taken : List Char) : Prop :=
  kind.terminal ≠ .endOfInput ∧ ∀ position id, Token.Spelled ⟨kind, String.ofList taken, position, id⟩

theorem Keyword.spelling_of_ofSpelling? {word : String} {k : Keyword}
    (h : Keyword.ofSpelling? word = some k) : k.spelling = word := by
  have := List.find?_some h
  simpa using this

namespace Munch

theorem fits_quoted {c : Char} {cs : List Char} {kind : TokenKind}
    (h : (quoted c cs).lexeme = .token kind) : kind.Fits (quoted c cs).taken := by
  unfold quoted at h ⊢
  split at h
  · cases h
  · cases h
    exact ⟨nofun, fun _ _ => trivial⟩

theorem fits_number {c : Char} {cs : List Char} {kind : TokenKind}
    (h : (number c cs).lexeme = .token kind) : kind.Fits (number c cs).taken := by
  have hkind : ∃ value, kind = .number value := by
    unfold number at h
    split at h
    · split at h <;> cases h <;> exact ⟨_, rfl⟩
    · cases h
      exact ⟨_, rfl⟩
  obtain ⟨value, rfl⟩ := hkind
  exact ⟨nofun, fun _ _ => trivial⟩

theorem fits_word {c : Char} {cs : List Char} {kind : TokenKind}
    (h : (word c cs).lexeme = .token kind) : kind.Fits (word c cs).taken := by
  unfold word at h ⊢
  cases h
  unfold wordKind
  split
  · rename_i k hk
    exact ⟨nofun, fun _ _ => (Keyword.spelling_of_ofSpelling? hk).symm⟩
  · rename_i hk
    exact ⟨nofun, fun _ _ => hk⟩

theorem fits_single {c : Char} {cs : List Char} {kind : TokenKind}
    (h : (single c cs).lexeme = .token kind) : kind.Fits (single c cs).taken := by
  unfold single at h ⊢
  split at h
  · rename_i p hp
    cases h
    refine ⟨nofun, fun _ _ => ?_⟩
    show String.ofList [c] = p.spelling
    unfold Punct.ofChar? at hp
    split at hp <;> cases hp <;> rfl
  · cases h

theorem fits_mark {c : Char} {cs : List Char} {kind : TokenKind}
    (h : (mark c cs).lexeme = .token kind) : kind.Fits (mark c cs).taken := by
  cases cs with
  | nil => exact fits_single h
  | cons d cs =>
    rw [mark] at h ⊢
    split at h
    · rename_i p hp
      cases h
      refine ⟨by simp [TokenKind.terminal], fun _ _ => ?_⟩
      show String.ofList [c, d] = p.spelling
      unfold Punct.ofPair? at hp
      split at hp <;> cases hp <;> rfl
    · exact fits_single h

end Munch

/-- A lexeme is written the way its kind is written, and is never the end of the text. -/
theorem fits_munch {c : Char} {cs : List Char} {kind : TokenKind}
    (h : (munch c cs).lexeme = .token kind) : kind.Fits (munch c cs).taken := by
  revert h
  unfold munch
  split
  · exact nofun
  split
  · exact Munch.fits_quoted
  split
  · exact Munch.fits_number
  split
  · exact Munch.fits_word
  split
  · exact nofun
  · exact Munch.fits_mark

/-! ## The scanner -/

namespace Scanner

/-- What a scanner that has not come to the end of its text may yield. -/
inductive Yields (s : Scanner) : Item → Scanner → Prop where
  | problem {p t} : t.finished = false → t.nextId = s.nextId → Yields s (.error p) t
  | token {tok t} : t.finished = false → t.nextId = s.nextId + 1 → tok.id = s.nextId →
      tok.terminal ≠ .endOfInput → tok.Spelled → Yields s (.ok tok) t
  | last {tok t} : t.finished = true → tok.id = s.nextId → tok.kind = .endOfInput →
      Yields s (.ok tok) t

theorem Yields.of_nextId {s s' t : Scanner} {item : Item} (h : Yields s item t)
    (hid : s'.nextId = s.nextId) : Yields s' item t := by
  cases h with
  | problem hf hn => exact .problem hf (hn.trans hid.symm)
  | token hf hn hi he hs => exact .token hf (by rw [hn, hid]) (hi.trans hid.symm) he hs
  | last hf hi he => exact .last hf (hi.trans hid.symm) he

theorem yields_next? {s : Scanner} (hf : s.finished = false) :
    ∃ item t, s.next? = some (item, t) ∧ Yields s item t := by
  fun_induction next? s with
  | case1 s h => simp [h] at hf
  | case2 s _ hr => exact ⟨_, _, rfl, .last rfl rfl rfl⟩
  | case3 s _ c cs hr m behind hm ih =>
    obtain ⟨item, t, ht, hy⟩ := ih hf
    exact ⟨item, t, ht, hy.of_nextId rfl⟩
  | case4 s _ c cs hr m behind kind hm =>
    have hfits := fits_munch hm
    exact ⟨_, _, rfl, .token hf rfl rfl hfits.1 (hfits.2 _ _)⟩
  | case5 s _ c cs hr m behind p hm => exact ⟨_, _, rfl, .problem hf rfl⟩

theorem items_of_finished {s : Scanner} (hf : s.finished = true) : s.items = [] := by
  rw [items, next?, if_pos hf]

theorem tokens_spec {s : Scanner} (hf : s.finished = false) :
    Ended (s.items.filterMap Except.toOption) ∧
      (∀ t ∈ s.items.filterMap Except.toOption, t.Spelled) ∧
      (s.items.filterMap Except.toOption).map Token.id =
        List.range' s.nextId (s.items.filterMap Except.toOption).length := by
  fun_induction items s with
  | case1 s hnone =>
    obtain ⟨item, t, ht, -⟩ := yields_next? hf
    rw [ht] at hnone
    cases hnone
  | case2 s item t ht ih =>
    obtain ⟨item', t', ht', hy⟩ := yields_next? hf
    obtain ⟨rfl, rfl⟩ : item = item' ∧ t = t' := by simpa [ht] using ht'
    cases hy with
    | problem hf' hn =>
      obtain ⟨hended, hspelled, hids⟩ := ih hf'
      exact ⟨hended, hspelled, hn ▸ hids⟩
    | @token tok _ hf' hn hi he hs =>
      obtain ⟨hended, hspelled, hids⟩ := ih hf'
      refine ⟨.cons he hended, List.forall_mem_cons.mpr ⟨hs, hspelled⟩, ?_⟩
      show tok.id :: (t.items.filterMap Except.toOption).map Token.id = _
      rw [hids, hn, hi]
      rfl
    | @last tok _ hf' hi he =>
      rw [items_of_finished hf']
      refine ⟨.last (congrArg TokenKind.terminal he), List.forall_mem_singleton.mpr ?_, congrArg (fun id => [id]) hi⟩
      rw [Token.Spelled, he]
      trivial

/-- The last item of a scanner that has not come to the end of its text is a token. -/
theorem items_concat {s : Scanner} (hf : s.finished = false) :
    ∃ front t, s.items = front ++ [.ok t] := by
  fun_induction items s with
  | case1 s hnone =>
    obtain ⟨item, t, ht, -⟩ := yields_next? hf
    rw [ht] at hnone
    cases hnone
  | case2 s item t ht ih =>
    obtain ⟨item', t', ht', hy⟩ := yields_next? hf
    obtain ⟨rfl, rfl⟩ : item = item' ∧ t = t' := by simpa [ht] using ht'
    cases hy with
    | problem hf' | token hf' =>
      obtain ⟨front, tok, hitems⟩ := ih hf'
      exact ⟨_ :: front, tok, by rw [hitems, List.cons_append]⟩
    | @last tok _ hf' => exact ⟨[], tok, by rw [items_of_finished hf', List.nil_append]⟩

end Scanner

variable (source : String)

/-- **The tokens of a text end with its end and nowhere before.** -/
theorem ended_tokens : Ended (tokens source) := (Scanner.tokens_spec rfl).1

/-- **The tokens of a text are written the way their kinds are written.** -/
theorem spelled_tokens : ∀ t ∈ tokens source, t.Spelled := (Scanner.tokens_spec rfl).2.1

/-- **The tokens of a text are numbered in their order.** -/
theorem ids_tokens : (tokens source).map Token.id = List.range' 0 (tokens source).length :=
  (Scanner.tokens_spec rfl).2.2

theorem rising_tokens : (tokens source).Pairwise fun t u => t.id < u.id := by
  have hids : ((tokens source).map Token.id).Pairwise (· < ·) := by
    rw [ids_tokens]
    exact List.pairwise_lt_range'
  exact List.pairwise_map.mp hids

theorem tokens_start (firstId : ExprId) :
    (Cursor.start (scan source) firstId).tokens = tokens source := by
  exact (Cursor.pull_spec Token.endOfNothing [] (scan source)).1 (ended_tokens source).ne_nil

/-- **The parser starts soundly.** -/
theorem sound_start (firstId : ExprId) : (Cursor.start (scan source) firstId).Sound where
  ended := by
    rw [tokens_start]
    exact ended_tokens source
  spelled := by
    rw [tokens_start]
    exact spelled_tokens source

theorem grave_start (firstId : ExprId) : Grave (Cursor.start (scan source) firstId).complaints :=
  (Cursor.pull_spec Token.endOfNothing [] (scan source)).2.2 (by simp [Grave])

end Lox
