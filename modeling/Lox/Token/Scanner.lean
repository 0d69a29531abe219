import Lox.Token.Basic
import Lox.Report.Problem

/-!
# From text to tokens

The scanner takes one lexeme after the other off the front of the text, always the longest one.
Blanks and comments are dropped, a character that begins no lexeme is reported and dropped, and
the end of the text is a token of its own.

* `munch`: the lexeme at the front of a text, `taken_append_rest`: it and what follows it are the
  whole text;
* `Scanner`, `Scanner.next?`: the scanner as a machine that yields one item at a time;
* `Scanner.items`: all items, `scan`: all items of a text, `tokens`: its tokens alone.
-/

namespace Lox

/-! ## Characters -/

/-- A blank between lexemes. Other white space is no part of the language. -/
def isBlank (c : Char) : Bool := c == ' ' || c == '\t' || c == '\r' || c == '\n'

/-- A character that begins a word; words are ASCII. -/
def isWordStart (c : Char) : Bool := c.isAlpha || c == '_'

/-- A character that continues a word. -/
def isWordPart (c : Char) : Bool := c.isAlphanum || c == '_'

/-- The punctuation token written with one character. -/
def Punct.ofChar? : Char → Option Punct
  | '(' => some leftParen
  | ')' => some rightParen
  | '\x7b' => some leftBrace
  | '\x7d' => some rightBrace
  | ',' => some comma
  | '.' => some dot
  | '-' => some minus
  | '+' => some plus
  | ';' => some semicolon
  | '/' => some slash
  | '*' => some star
  | '!' => some bang
  | '=' => some equal
  | '<' => some less
  | '>' => some greater
  | _ => none

/-- The punctuation token written with two characters. -/
def Punct.ofPair? : Char → Char → Option Punct
  | '!', '=' => some bangEqual
  | '=', '=' => some equalEqual
  | '<', '=' => some lessEqual
  | '>', '=' => some greaterEqual
  | _, _ => none

/-! ## One lexeme -/

/-- What the front of a text turned out to be. -/
inductive Lexeme where
  /-- Blanks or a comment. -/
  | dropped
  | token (kind : TokenKind)
  | problem (p : LexicalProblem)

/-- A lexeme with the characters it was read from and the text behind it. -/
structure Munch where
  taken : List Char
  rest : List Char
  lexeme : Lexeme

namespace Munch

/-- A comment runs up to the end of its line. -/
def comment (c : Char) (cs : List Char) : Munch :=
  ⟨c :: cs.takeWhile (· != '\n'), cs.dropWhile (· != '\n'), .dropped⟩

/-- A string runs up to the next quote, over line ends and without escapes; `c` is the quote in
front. -/
def quoted (c : Char) (cs : List Char) : Munch :=
  let contents := cs.takeWhile (· != '"')
  match cs.dropWhile (· != '"') with
  | [] => ⟨c :: contents, [], .problem .unterminatedString⟩
  | close :: rest => ⟨c :: (contents ++ [close]), rest, .token (.string (String.ofList contents))⟩

/-- A number is a row of digits, with a fraction if a digit follows the point. -/
def number (c : Char) (cs : List Char) : Munch :=
  let whole := cs.takeWhile Char.isDigit
  let integer (rest : List Char) : Munch :=
    ⟨c :: whole, rest, .token (.number (Number.ofDigits (c :: whole) []))⟩
  match cs.dropWhile Char.isDigit with
  | '.' :: d :: rest =>
    if d.isDigit then
      let fraction := d :: rest.takeWhile Char.isDigit
      ⟨c :: (whole ++ '.' :: fraction), rest.dropWhile Char.isDigit,
        .token (.number (Number.ofDigits (c :: whole) fraction))⟩
    else integer ('.' :: d :: rest)
  | rest => integer rest

/-- The kind of a word: a reserved word or an identifier. -/
def wordKind (word : String) : TokenKind :=
  match Keyword.ofSpelling? word with
  | some k => .keyword k
  | none => .identifier

/-- A word is as long as it can be, and a reserved word only if it is spelled like one. -/
def word (c : Char) (cs : List Char) : Munch :=
  let taken := c :: cs.takeWhile isWordPart
  ⟨taken, cs.dropWhile isWordPart, .token (wordKind (String.ofList taken))⟩

/-- A mark of one character, or a character that begins no lexeme. -/
def single (c : Char) (cs : List Char) : Munch :=
  match Punct.ofChar? c with
  | some p => ⟨[c], cs, .token (.punct p)⟩
  | none => ⟨[c], cs, .problem .unexpectedCharacter⟩

/-- A mark of two characters if there is one, else of one. -/
def mark (c : Char) : List Char → Munch
  | [] => single c []
  | d :: cs =>
    match Punct.ofPair? c d with
    | some p => ⟨[c, d], cs, .token (.punct p)⟩
    | none => single c (d :: cs)

end Munch

/-- The lexeme at the front of the text `c :: cs`. -/
def munch (c : Char) (cs : List Char) : Munch :=
  if isBlank c then ⟨[c], cs, .dropped⟩
  else if c == '"' then .quoted c cs
  else if c.isDigit then .number c cs
  else if isWordStart c then .word c cs
  else if c == '/' && cs.head? == some '/' then .comment c cs
  else .mark c cs

/-! ## A lexeme and what follows it are the text -/

namespace Munch

theorem quoted_append (c : Char) (cs : List Char) :
    (quoted c cs).taken ++ (quoted c cs).rest = c :: cs := by
  have h := List.takeWhile_append_dropWhile (p := (· != '"')) (l := cs)
  unfold quoted
  split <;> rename_i hd <;> rw [hd] at h <;> simpa using h

theorem number_append (c : Char) (cs : List Char) :
    (number c cs).taken ++ (number c cs).rest = c :: cs := by
  have h := List.takeWhile_append_dropWhile (p := Char.isDigit) (l := cs)
  unfold number
  split <;> rename_i hd
  · rw [hd] at h
    split <;> simpa using h
  · simp

theorem single_append (c : Char) (cs : List Char) :
    (single c cs).taken ++ (single c cs).rest = c :: cs := by
  unfold single
  split <;> rfl

theorem mark_append (c : Char) (cs : List Char) : (mark c cs).taken ++ (mark c cs).rest = c :: cs := by
  cases cs with
  | nil => exact single_append c []
  | cons d cs =>
    rw [mark]
    split
    · rfl
    · exact single_append c (d :: cs)

end Munch

/-- **A lexeme and what follows it are the whole text.** -/
theorem taken_append_rest (c : Char) (cs : List Char) :
    (munch c cs).taken ++ (munch c cs).rest = c :: cs := by
  unfold munch
  split
  · rfl
  split
  · exact Munch.quoted_append c cs
  split
  · exact Munch.number_append c cs
  split
  · simp [Munch.word]
  split
  · simp [Munch.comment]
  · exact Munch.mark_append c cs

theorem taken_ne_nil (c : Char) (cs : List Char) : (munch c cs).taken ≠ [] := by
  unfold munch
  repeat' split
  · simp
  · unfold Munch.quoted
    split <;> simp
  · unfold Munch.number
    repeat' split
    all_goals simp
  · simp [Munch.word]
  · simp [Munch.comment]
  · unfold Munch.mark Munch.single
    repeat' split
    all_goals simp

theorem length_rest_lt (c : Char) (cs : List Char) :
    (munch c cs).rest.length < (c :: cs).length := by
  have h := congrArg List.length (taken_append_rest c cs)
  have hne : 0 < (munch c cs).taken.length := List.length_pos_iff.mpr (taken_ne_nil c cs)
  simp only [List.length_append] at h
  omega

/-! ## The scanner -/

/-- One thing the scanner yields: a token, or a problem at its place. -/
abbrev Item := Except (Located LexicalProblem) Token

/-- The number of bytes that characters take in UTF-8. -/
def byteLength : List Char → Nat
  | [] => 0
  | c :: cs => c.utf8Size + byteLength cs

/-- A scanner stands at `offset` on `line` in front of the text `rest`. -/
structure Scanner where
  rest : List Char
  offset : Nat
  line : Nat
  nextId : TokenId
  /-- The end of the text was yielded. -/
  finished : Bool

namespace Scanner

/-- A scanner in front of a whole text. -/
def ofString (source : String) : Scanner := ⟨source.toList, 0, 1, 0, false⟩

/-- The scanner behind `taken`. -/
def pass (s : Scanner) (taken rest : List Char) : Scanner :=
  { s with
    rest := rest
    offset := s.offset + byteLength taken
    line := s.line + taken.count '\n' }

/-- The token that reaches from the scanner to `behind`; it has the line where it ends. -/
def token (s behind : Scanner) (kind : TokenKind) (taken : List Char) : Token :=
  ⟨kind, String.ofList taken, ⟨behind.line, s.offset, behind.offset⟩, s.nextId⟩

/-- The next item and the scanner behind it; nothing follows the end of the text. -/
def next? (s : Scanner) : Option (Item × Scanner) :=
  if s.finished then none
  else
    match _hr : s.rest with
    | [] => some (.ok (s.token s .endOfInput []), { s with nextId := s.nextId + 1, finished := true })
    | c :: cs =>
      let m := munch c cs
      let behind := s.pass m.taken m.rest
      match m.lexeme with
      | .dropped => behind.next?
      | .token kind =>
        some (.ok (s.token behind kind m.taken), { behind with nextId := s.nextId + 1 })
      | .problem p =>
        some (.error ⟨p, ⟨behind.line, s.offset, behind.offset⟩⟩, behind)
termination_by s.rest.length
decreasing_by
  rw [_hr]
  exact length_rest_lt c cs

/-- How much a scanner has still to do. -/
def work (s : Scanner) : Nat := if s.finished then 0 else s.rest.length + 1

theorem work_next?_lt {s t : Scanner} {item : Item} (h : s.next? = some (item, t)) :
    t.work < s.work := by
  fun_induction next? s with
  | case1 => simp at h
  | case2 s hf hr =>
    simp only [Option.some.injEq, Prod.mk.injEq] at h
    obtain ⟨-, rfl⟩ := h
    simp [work, hf]
  | case3 s hf c cs hr m behind hm ih =>
    have hlt := ih h
    have hrest : behind.rest.length < s.rest.length := by
      rw [hr]
      exact length_rest_lt c cs
    have hfin : behind.finished = s.finished := rfl
    simp only [work, hfin, hf] at hlt ⊢
    simp only [Bool.false_eq_true, if_false] at hlt ⊢
    omega
  | case4 s hf c cs hr m behind kind hm =>
    simp only [Option.some.injEq, Prod.mk.injEq] at h
    obtain ⟨-, rfl⟩ := h
    have hrest : behind.rest.length < s.rest.length := by
      rw [hr]
      exact length_rest_lt c cs
    have hfin : behind.finished = s.finished := rfl
    simp only [work, hfin, hf, Bool.false_eq_true, if_false]
    omega
  | case5 s hf c cs hr m behind p hm =>
    simp only [Option.some.injEq, Prod.mk.injEq] at h
    obtain ⟨-, rfl⟩ := h
    have hrest : behind.rest.length < s.rest.length := by
      rw [hr]
      exact length_rest_lt c cs
    have hfin : behind.finished = s.finished := rfl
    simp only [work, hfin, hf, Bool.false_eq_true, if_false]
    omega

/-- All items that a scanner yields. -/
def items (s : Scanner) : List Item :=
  match _h : s.next? with
  | none => []
  | some (item, t) => item :: items t
termination_by s.work
decreasing_by exact work_next?_lt (by assumption)

/-- The scanner that has yielded all its items. -/
def exhaust (s : Scanner) : Scanner :=
  match _h : s.next? with
  | none => s
  | some (_, t) => exhaust t
termination_by s.work
decreasing_by exact work_next?_lt (by assumption)

end Scanner

/-- All items of a text. -/
def scan (source : String) : List Item := (Scanner.ofString source).items

/-- The tokens of a text. -/
def tokens (source : String) : List Token := (scan source).filterMap Except.toOption

end Lox
