import Lox.Proofs.Syntax.Relocation
import Lox.Proofs.Token.Scanned

/-!
# The tokens of a text behind another one

A line end is part of no token but a string. So a text on a new line behind a text without problems
has the tokens that it has alone, moved behind those of the other one.

* `munch_append`: what stands behind a line end does not matter for the lexeme in front of it;
* `Scanner.items_behind`: a scanner that starts elsewhere yields the same items elsewhere;
* **`scan_behind`**: the items of two texts with a line end between them.
-/

namespace Lox

/-! ## One lexeme -/

section Rows

variable {α : Type} {p : α → Bool} {x : α}

theorem takeWhile_append_stop (hx : p x = false) (xs ys : List α) :
    (xs ++ x :: ys).takeWhile p = xs.takeWhile p := by
  induction xs with
  | nil => simp [hx]
  | cons y xs ih => by_cases hy : p y <;> simp [hy, ih]

theorem dropWhile_append_stop (hx : p x = false) (xs ys : List α) :
    (xs ++ x :: ys).dropWhile p = xs.dropWhile p ++ x :: ys := by
  rw [List.dropWhile_append]
  split <;> simp_all

theorem takeWhile_append_of_dropWhile {xs : List α} (h : xs.dropWhile p ≠ []) (ys : List α) :
    (xs ++ ys).takeWhile p = xs.takeWhile p := by
  rw [List.takeWhile_append, if_neg]
  intro hl
  have hlength := congrArg List.length (List.takeWhile_append_dropWhile (p := p) (l := xs))
  rw [List.length_append] at hlength
  have := List.length_pos_iff.mpr h
  omega

theorem dropWhile_append_of_dropWhile {xs : List α} (h : xs.dropWhile p ≠ []) (ys : List α) :
    (xs ++ ys).dropWhile p = xs.dropWhile p ++ ys := by
  rw [List.dropWhile_append, if_neg (by simpa using h)]

end Rows

namespace Munch

/-- The same lexeme, with more text behind it. -/
def extend (m : Munch) (text : List Char) : Munch := { m with rest := m.rest ++ text }

variable (c : Char) (cs text : List Char)

theorem quoted_extend (h : (quoted c cs).lexeme ≠ .problem .unterminatedString) :
    quoted c (cs ++ text) = (quoted c cs).extend text := by
  have hne : cs.dropWhile (· != '"') ≠ [] := by
    intro he
    unfold quoted at h
    rw [he] at h
    exact h rfl
  unfold quoted
  rw [takeWhile_append_of_dropWhile hne, dropWhile_append_of_dropWhile hne]
  cases hd : cs.dropWhile (· != '"') with
  | nil => exact absurd hd hne
  | cons close rest => rfl

theorem number_extend : number c (cs ++ '\n' :: text) = (number c cs).extend ('\n' :: text) := by
  unfold number
  rw [takeWhile_append_stop (by decide), dropWhile_append_stop (by decide)]
  cases cs.dropWhile Char.isDigit with
  | nil => rfl
  | cons d rest =>
    by_cases hd : d = '.'
    · subst hd
      cases rest with
      | nil => rfl
      | cons e rest =>
        simp only [List.cons_append]
        split
        · rw [takeWhile_append_stop (by decide), dropWhile_append_stop (by decide)]
          rfl
        · rfl
    · have hno {xs : List Char} : ∀ e rest', d :: xs = '.' :: e :: rest' → False := by
        intro e rest' he
        exact hd (List.cons.inj he).1
      simp only [List.cons_append]
      split
      · rename_i he
        exact (hno _ _ he).elim
      · split
        · rename_i he
          exact (hno _ _ he).elim
        · rfl

theorem word_extend : word c (cs ++ '\n' :: text) = (word c cs).extend ('\n' :: text) := by
  unfold word
  rw [takeWhile_append_stop (by decide), dropWhile_append_stop (by decide)]
  rfl

theorem comment_extend : comment c (cs ++ '\n' :: text) = (comment c cs).extend ('\n' :: text) := by
  unfold comment
  rw [takeWhile_append_stop (by decide), dropWhile_append_stop (by decide)]
  rfl

theorem single_extend : single c (cs ++ text) = (single c cs).extend text := by
  unfold single
  split <;> rfl

theorem mark_extend : mark c (cs ++ '\n' :: text) = (mark c cs).extend ('\n' :: text) := by
  cases cs with
  | nil =>
    have hpair : Punct.ofPair? c '\n' = none := by
      unfold Punct.ofPair?
      split <;> simp_all
    simp only [List.nil_append, mark, hpair]
    exact single_extend c [] _
  | cons d cs =>
    simp only [List.cons_append, mark]
    split
    · rfl
    · exact single_extend c (d :: cs) _

end Munch

/-- **The lexeme in front of a line end does not depend on what follows the line**, unless it is a
string without an end. -/
theorem munch_extend {c : Char} {cs : List Char} (text : List Char)
    (h : (munch c cs).lexeme ≠ .problem .unterminatedString) :
    munch c (cs ++ '\n' :: text) = (munch c cs).extend ('\n' :: text) := by
  have hslash : (cs ++ '\n' :: text).head? == some '/' ↔ cs.head? == some '/' := by
    cases cs <;> simp
  unfold munch at h ⊢
  simp only [Bool.and_eq_true, hslash] at h ⊢
  split
  · rfl
  rename_i hblank
  rw [if_neg hblank] at h
  split
  · rename_i hquote
    rw [if_pos hquote] at h
    exact Munch.quoted_extend c cs _ h
  split
  · exact Munch.number_extend c cs text
  split
  · exact Munch.word_extend c cs text
  split
  · exact Munch.comment_extend c cs text
  · exact Munch.mark_extend c cs text

/-! ## All items -/

theorem byteLength_append (front back : List Char) :
    byteLength (front ++ back) = byteLength front + byteLength back := by
  induction front with
  | nil => simp [byteLength]
  | cons c front ih => rw [List.cons_append, byteLength, ih, byteLength, Nat.add_assoc]

/-- The item of the relocated text. -/
def Item.relocate (r : Relocation) : Item → Item
  | .ok t => .ok (t.relocate r)
  | .error p => .error ⟨p.value, p.position.relocate r⟩

theorem filterMap_map_ok (ts : List Token) :
    (ts.map (Except.ok : Token → Item)).filterMap Except.toOption = ts := by
  simp [List.filterMap_map, Function.comp_def, Except.toOption]

theorem filterMap_relocate (r : Relocation) (items : List Item) :
    (items.map (Item.relocate r)).filterMap Except.toOption =
      (items.filterMap Except.toOption).map (Token.relocate r) := by
  induction items with
  | nil => rfl
  | cons item items ih =>
    cases item with
    | ok t => exact congrArg (t.relocate r :: ·) ih
    | error p => exact ih

namespace Scanner

section Steps

variable {s : Scanner} (hf : s.finished = false)

include hf

theorem items_nil (hr : s.rest = []) : s.items = [.ok (s.token s .endOfInput [])] := by
  have hnext : s.next? =
      some (.ok (s.token s .endOfInput []), { s with nextId := s.nextId + 1, finished := true }) := by
    rw [next?, if_neg (by simp [hf])]
    split
    · rfl
    · simp_all
  rw [items]
  split <;> simp_all [items_of_finished]

theorem items_cons {c : Char} {cs : List Char} (hr : s.rest = c :: cs) :
    s.items =
      let behind := s.pass (munch c cs).taken (munch c cs).rest
      match (munch c cs).lexeme with
      | .dropped => behind.items
      | .token kind =>
        .ok (s.token behind kind (munch c cs).taken) :: { behind with nextId := s.nextId + 1 }.items
      | .problem p => .error ⟨p, ⟨behind.line, s.offset, behind.offset⟩⟩ :: behind.items := by
  have hnext : s.next? =
      let behind := s.pass (munch c cs).taken (munch c cs).rest
      match (munch c cs).lexeme with
      | .dropped => behind.next?
      | .token kind => some (.ok (s.token behind kind (munch c cs).taken),
          { behind with nextId := s.nextId + 1 })
      | .problem p => some (.error ⟨p, ⟨behind.line, s.offset, behind.offset⟩⟩, behind) := by
    rw [next?, if_neg (by simp [hf])]
    split
    · simp_all
    · rename_i he
      obtain ⟨rfl, rfl⟩ := List.cons.inj (hr.symm.trans he)
      rfl
  cases hm : (munch c cs).lexeme with
  | dropped =>
    simp only [hm] at hnext ⊢
    rw [items, items]
    split <;> split <;> simp_all
  | token kind =>
    simp only [hm] at hnext ⊢
    rw [items]
    split <;> simp_all
  | problem p =>
    simp only [hm] at hnext ⊢
    rw [items]
    split <;> simp_all

end Steps

/-- The scanner further back in a longer text. -/
def behind (lines bytes tokens : Nat) (s : Scanner) : Scanner :=
  { s with line := lines + s.line, offset := bytes + s.offset, nextId := tokens + s.nextId }

/-- **A scanner that starts elsewhere yields the same items elsewhere.** -/
theorem items_behind (lines bytes tokens : Nat) (s : Scanner) :
    (s.behind lines bytes tokens).items =
      s.items.map (Item.relocate (.behind lines bytes tokens)) := by
  generalize hn : s.rest.length = n
  induction n using Nat.strongRecOn generalizing s with
  | ind n ih =>
    cases hf : s.finished with
    | true =>
      rw [items_of_finished hf, items_of_finished (s := s.behind lines bytes tokens) hf, List.map_nil]
    | false =>
      cases hr : s.rest with
      | nil =>
        rw [items_nil hf hr, items_nil (s := s.behind lines bytes tokens) hf hr]
        rfl
      | cons c cs =>
        have hlt : (munch c cs).rest.length < n := by
          rw [← hn, hr]
          exact length_rest_lt c cs
        have hpass : (s.behind lines bytes tokens).pass (munch c cs).taken (munch c cs).rest =
            (s.pass (munch c cs).taken (munch c cs).rest).behind lines bytes tokens := by
          simp [pass, behind, Nat.add_assoc]
        rw [items_cons hf hr, items_cons (s := s.behind lines bytes tokens) hf hr, hpass]
        cases (munch c cs).lexeme with
        | dropped => exact ih _ hlt _ rfl
        | token kind =>
          rw [List.map_cons, ← ih _ hlt { s.pass (munch c cs).taken (munch c cs).rest with
            nextId := s.nextId + 1 } rfl]
          rfl
        | problem p =>
          rw [List.map_cons]
          exact congrArg (List.cons _) (ih _ hlt _ rfl)

/-- In front of a line end the items are those of the text alone, but for its end. -/
theorem items_extend (text : List Char) {s : Scanner} (hf : s.finished = false)
    (hok : ∀ item ∈ s.items, ∃ t, item = .ok t) :
    ∃ ts last, s.items = (ts ++ [last]).map .ok ∧
      ({ s with rest := s.rest ++ '\n' :: text } : Scanner).items = ts.map .ok ++
        (⟨'\n' :: text, s.offset + byteLength s.rest, s.line + s.rest.count '\n',
          s.nextId + ts.length, false⟩ : Scanner).items := by
  generalize hn : s.rest.length = n
  induction n using Nat.strongRecOn generalizing s with
  | ind n ih =>
    cases hr : s.rest with
    | nil =>
      refine ⟨[], s.token s .endOfInput [], items_nil hf hr, ?_⟩
      simp [byteLength, hf]
    | cons c cs =>
      have hlt : (munch c cs).rest.length < n := by
        rw [← hn, hr]
        exact length_rest_lt c cs
      have hitems := items_cons hf hr
      have hbytes := byteLength_append (munch c cs).taken (munch c cs).rest
      have hlines : ((munch c cs).taken ++ (munch c cs).rest).count '\n' =
          (munch c cs).taken.count '\n' + (munch c cs).rest.count '\n' := List.count_append
      rw [taken_append_rest] at hbytes hlines
      have hlong := items_cons (s := { s with rest := c :: cs ++ '\n' :: text }) hf
        (List.cons_append ..)
      -- what the scanner yields behind the lexeme, from any number on
      have hbehind := fun id (hall : ∀ item ∈
          ({ s.pass (munch c cs).taken (munch c cs).rest with nextId := id } : Scanner).items,
          ∃ t, item = .ok t) =>
        ih _ hlt (s := { s.pass (munch c cs).taken (munch c cs).rest with nextId := id }) hf hall rfl
      rw [hitems] at hok
      rw [hbytes, hlines, ← Nat.add_assoc, ← Nat.add_assoc]
      cases hm : (munch c cs).lexeme with
      | dropped =>
        rw [munch_extend text (by simp [hm])] at hlong
        simp only [Munch.extend, hm] at hlong hitems hok
        rw [hitems, hlong]
        exact hbehind s.nextId hok
      | token kind =>
        rw [munch_extend text (by simp [hm])] at hlong
        simp only [Munch.extend, hm] at hlong hitems hok
        rw [hitems, hlong]
        obtain ⟨ts, last, hts, htext⟩ :=
          hbehind (s.nextId + 1) fun item hmem => hok item (List.mem_cons_of_mem _ hmem)
        refine ⟨s.token (s.pass (munch c cs).taken (munch c cs).rest) kind (munch c cs).taken :: ts,
          last, by rw [hts]; rfl, ?_⟩
        rw [List.map_cons, List.cons_append, List.length_cons, Nat.add_comm ts.length,
          ← Nat.add_assoc]
        exact congrArg _ htext
      | problem p =>
        simp only [hm] at hok
        obtain ⟨t, ht⟩ := hok _ List.mem_cons_self
        cases ht

end Scanner

/-- **The items of two texts with a line end between them**, if the first one has no problem: its
tokens but for its end, and then the items of the second one, further on by what stands in front
of it. -/
theorem scan_behind {first : String} (second : String)
    (hok : ∀ item ∈ scan first, ∃ t, item = .ok t) :
    ∃ ts last, scan first = (ts ++ [last]).map .ok ∧
      scan (first ++ "\n" ++ second) =
        ts.map .ok ++ (scan second).map (Item.relocate
          (.behind (first.toList.count '\n' + 1) (byteLength first.toList + 1) ts.length)) := by
  obtain ⟨ts, last, hts, htext⟩ := Scanner.items_extend second.toList (s := .ofString first) rfl hok
  refine ⟨ts, last, hts, ?_⟩
  have hwhole : scan (first ++ "\n" ++ second) =
      ({ Scanner.ofString first with rest := first.toList ++ '\n' :: second.toList } : Scanner).items := by
    simp [scan, Scanner.ofString, String.toList_append]
  refine hwhole.trans (htext.trans (congrArg _ ?_))
  rw [Scanner.items_cons rfl rfl, show scan second = (Scanner.ofString second).items from rfl,
    ← Scanner.items_behind]
  have hline : munch '\n' second.toList = ⟨['\n'], second.toList, .dropped⟩ := rfl
  have hsize : '\n'.utf8Size = 1 := rfl
  rw [hline]
  refine congrArg Scanner.items ?_
  simp [Scanner.pass, Scanner.behind, Scanner.ofString, byteLength, hsize]
  omega

theorem scan_join {first : String} (second : String)
    (hok : ∀ item ∈ scan first, ∃ t, item = .ok t) :
    ∃ ts last lines bytes, scan first = (ts ++ [last]).map .ok ∧
      scan (first ++ "\n" ++ second) =
        ts.map .ok ++ (scan second).map (Item.relocate (.behind lines bytes ts.length)) := by
  obtain ⟨ts, last, hfirst, hjoin⟩ := scan_behind second hok
  exact ⟨ts, last, _, _, hfirst, hjoin⟩

end Lox
