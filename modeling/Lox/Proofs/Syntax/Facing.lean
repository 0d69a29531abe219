import Lox.Proofs.Syntax.ReadStatement
import Lox.Proofs.Syntax.Unnumbered

/-!
# In front of a text without problems

* `Cursor.Faces`: a cursor stands in front of the given tokens, and no problem was or will be found
  in them;
* `OutOfFuel`: a rule stopped because it ran out of fuel, which is ruled out elsewhere;
* `Cursor.Faces.mark`, …: the basic rules in front of the token they ask for;
* `Accepts`: a rule reads exactly a given row of tokens;
* `Stops`: the token behind a row does not belong to what was read.
-/

namespace Lox

open Lox.Parser

/-- The cursor stands in front of the given tokens. No problem was noted so far, and none stands
between the tokens. -/
structure Cursor.Faces (c : Cursor) (ts : List Token) : Prop where
  sound : c.Sound
  tokens : c.tokens = ts
  lexed : ∀ item ∈ c.pending, ∃ t, item = .ok t
  silent : c.complaints = []

/-- The rule ran out of fuel. That no rule does so is known from what the rules read. -/
def OutOfFuel (h : Halt) (_ : Cursor) : Prop := h = .outOfFuel

namespace Cursor.Faces

variable {c : Cursor} {t : Token} {ts : List Token}

theorem current (h : c.Faces (t :: ts)) : c.current = t := by
  have := h.tokens
  rw [Cursor.tokens, List.cons.injEq] at this
  exact this.1

theorem exists_cons (h : c.Faces ts) : ∃ t us, ts = t :: us := ⟨_, _, h.tokens.symm⟩

theorem advance (h : c.Faces (t :: ts)) (ht : t.terminal ≠ .endOfInput) : c.advance.Faces ts := by
  have hcurrent := h.current
  have hpass := Cursor.passes_advance h.sound (hcurrent ▸ ht)
  have htokens := hpass.tokens
  rw [h.tokens, List.cons.injEq] at htokens
  have hat : c.atEnd = false := by simpa [Cursor.atEnd, hcurrent] using ht
  refine ⟨hpass.leads.sound h.sound, htokens.2.symm, ?_, ?_⟩
  · have hlexed := h.lexed
    rw [Cursor.advance, hat]
    cases hp : c.pending with
    | nil => exact fun item hitem => absurd hitem List.not_mem_nil
    | cons item items =>
      rw [hp] at hlexed
      obtain ⟨u, rfl⟩ := hlexed item List.mem_cons_self
      exact fun item hitem => hlexed item (List.mem_cons_of_mem _ hitem)
  · have hlexed := h.lexed
    rw [Cursor.advance, hat]
    cases hp : c.pending with
    | nil => exact h.silent
    | cons item items =>
      rw [hp] at hlexed
      obtain ⟨u, rfl⟩ := hlexed item List.mem_cons_self
      exact h.silent

/-! ## The basic rules -/

variable {β : Type} {ok : β → Cursor → Prop}

theorem peek {f : Terminal → Parser β} (h : c.Faces (t :: ts))
    (hf : Ensures (f t.terminal) c ok OutOfFuel) : Ensures (Parser.peek >>= f) c ok OutOfFuel := by
  rw [ensures_bind, ensures_peek, h.current]
  exact hf

theorem pass {f : Token → Parser β} (h : c.Faces (t :: ts)) (ht : t.terminal ≠ .endOfInput)
    (hf : ∀ d : Cursor, d.Faces ts → Ensures (f t) d ok OutOfFuel) :
    Ensures (Parser.advance >>= f) c ok OutOfFuel := by
  rw [ensures_bind, ensures_advance, h.current]
  exact hf _ (h.advance ht)

theorem accepted {f : Option Token → Parser β} {terminal : Terminal} (h : c.Faces (t :: ts))
    (ht : t.terminal = terminal) (hend : terminal ≠ .endOfInput)
    (hf : ∀ d : Cursor, d.Faces ts → Ensures (f (some t)) d ok OutOfFuel) :
    Ensures (accept? terminal >>= f) c ok OutOfFuel := by
  rw [ensures_bind, accept?, ensures_bind, ensures_peek, h.current, if_pos (by simpa using ht)]
  exact h.pass (ht ▸ hend) hf

theorem refused {f : Option Token → Parser β} {terminal : Terminal} (h : c.Faces (t :: ts))
    (ht : t.terminal ≠ terminal) (hf : Ensures (f none) c ok OutOfFuel) :
    Ensures (accept? terminal >>= f) c ok OutOfFuel := by
  rw [ensures_bind, accept?, ensures_bind, ensures_peek, h.current, if_neg (by simpa using ht)]
  exact hf

theorem expected {f : Token → Parser β} {terminal : Terminal} {problem : SyntaxProblem}
    (h : c.Faces (t :: ts)) (ht : t.terminal = terminal) (hend : terminal ≠ .endOfInput)
    (hf : ∀ d : Cursor, d.Faces ts → Ensures (f t) d ok OutOfFuel) :
    Ensures (expect terminal problem >>= f) c ok OutOfFuel := by
  rw [ensures_bind, expect]
  exact h.accepted ht hend hf

theorem mark {f : Token → Parser β} {p : Punct} {place : Place} (h : c.Faces (t :: ts))
    (ht : t.IsMark p) (hf : ∀ d : Cursor, d.Faces ts → Ensures (f t) d ok OutOfFuel) :
    Ensures (expectMark p place >>= f) c ok OutOfFuel :=
  h.expected ht.terminal (by simp) hf

theorem name {f : Token → Parser β} {problem : SyntaxProblem} (h : c.Faces (t :: ts))
    (ht : t.IsName) (hf : ∀ d : Cursor, d.Faces ts → Ensures (f t) d ok OutOfFuel) :
    Ensures (expect .identifier problem >>= f) c ok OutOfFuel :=
  h.expected ht.terminal (by simp) hf

theorem dispatch {f : Terminal → Parser β} {g : Token → Parser β} {terminal : Terminal}
    (h : c.Faces (t :: ts)) (ht : t.terminal = terminal) (hend : terminal ≠ .endOfInput)
    (hf : f terminal = Parser.advance >>= g)
    (hg : ∀ d : Cursor, d.Faces ts → Ensures (g t) d ok OutOfFuel) :
    Ensures (Parser.peek >>= f) c ok OutOfFuel := by
  refine h.peek ?_
  rw [ht, hf]
  exact h.pass (ht ▸ hend) hg

theorem word {f : Terminal → Parser β} {g : Token → Parser β} {k : Keyword}
    (h : c.Faces (t :: ts)) (ht : t.IsWord k) (hf : f (.keyword k) = Parser.advance >>= g)
    (hg : ∀ d : Cursor, d.Faces ts → Ensures (g t) d ok OutOfFuel) :
    Ensures (Parser.peek >>= f) c ok OutOfFuel :=
  h.dispatch ht.terminal (by simp) hf hg

theorem opens {f : Terminal → Parser β} {g : Token → Parser β} {p : Punct}
    (h : c.Faces (t :: ts)) (ht : t.IsMark p) (hf : f (.punct p) = Parser.advance >>= g)
    (hg : ∀ d : Cursor, d.Faces ts → Ensures (g t) d ok OutOfFuel) :
    Ensures (Parser.peek >>= f) c ok OutOfFuel :=
  h.dispatch ht.terminal (by simp) hf hg

theorem freshId {f : ExprId → Parser β} (h : c.Faces ts)
    (hf : ∀ id (d : Cursor), d.Faces ts → Ensures (f id) d ok OutOfFuel) :
    Ensures (Parser.freshId >>= f) c ok OutOfFuel := by
  rw [ensures_bind, ensures_freshId]
  exact hf _ _ ⟨h.sound.number _, h.tokens, h.lexed, h.silent⟩

end Cursor.Faces

/-! ## Rows that are read exactly -/

/-- In front of the tokens `ts` and, behind them, `rest` the rule reads `ts` and yields something
that is `ok`. -/
def Accepts {α : Type} (rule : Parser α) (ts rest : List Token) (ok : α → Prop) : Prop :=
  ∀ c : Cursor, c.Faces (ts ++ rest) → Ensures rule c (fun a d => ok a ∧ d.Faces rest) OutOfFuel

theorem Accepts.bind {α β : Type} {rule : Parser α} {ts rest : List Token} {ok : α → Prop}
    {f : α → Parser β} {ok' : β → Cursor → Prop} {c : Cursor} (h : Accepts rule ts rest ok)
    (hc : c.Faces (ts ++ rest))
    (hf : ∀ a (d : Cursor), ok a → d.Faces rest → Ensures (f a) d ok' OutOfFuel) :
    Ensures (rule >>= f) c ok' OutOfFuel :=
  Ensures.bind (h c hc) (fun a d _ ha => hf a d ha.1 ha.2) (fun _ _ hh => hh)

theorem Accepts.map {α β : Type} {rule : Parser α} {ts rest : List Token} {ok : α → Prop}
    {f : α → β} {ok' : β → Prop} (h : Accepts rule ts rest ok) (hf : ∀ a, ok a → ok' (f a)) :
    Accepts (f <$> rule) ts rest ok' := by
  intro c hc
  rw [ensures_map]
  refine (h c hc).mono ?_ (fun _ _ hh => hh)
  rintro a d - ⟨ha, hd⟩
  exact ⟨hf a ha, hd⟩

/-- How tightly the operator binds that a token is, if it is one that may stand behind an
expression. -/
def Terminal.tightness? : Terminal → Option Nat
  | .punct .equal => some 0
  | .keyword .or => some 1
  | .keyword .and => some 2
  | .punct .equalEqual | .punct .bangEqual => some 3
  | .punct .less | .punct .lessEqual | .punct .greater | .punct .greaterEqual => some 4
  | .punct .plus | .punct .minus => some 5
  | .punct .star | .punct .slash => some 6
  | .punct .leftParen | .punct .dot => some 8
  | _ => none

/-- How tightly an operator of a level binds. -/
def Grammar.Level.tightness : Grammar.Level → Nat
  | disjunction => 1
  | conjunction => 2
  | equality => 3
  | comparison => 4
  | sum => 5
  | product => 6

/-- The operators that bind less tightly do not belong to an expression of the rank. -/
def Grammar.Rank.tightness : Grammar.Rank → Nat
  | expression => 0
  | operation level => level.tightness
  | unary => 7
  | call => 8
  | primary => 9

/-- An expression of the rank ends in front of the tokens. -/
def Stops (rank : Grammar.Rank) (rest : List Token) : Prop :=
  ∀ t ∈ rest.head?, ∀ n ∈ t.terminal.tightness?, n < rank.tightness

theorem Stops.mono {rank rank' : Grammar.Rank} {rest : List Token} (h : Stops rank rest)
    (hr : rank.tightness ≤ rank'.tightness) : Stops rank' rest :=
  fun t ht n hn => Nat.lt_of_lt_of_le (h t ht n hn) hr

theorem stops_cons {rank : Grammar.Rank} {t : Token} {ts : List Token} :
    Stops rank (t :: ts) ↔ ∀ n ∈ t.terminal.tightness?, n < rank.tightness := by
  simp [Stops]

theorem Grammar.Level.tightness_operand (level : Grammar.Level) :
    level.operand.tightness = level.tightness + 1 := by
  cases level <;> rfl

theorem stops_operator {level : Grammar.Level} {t : Token} {ts : List Token}
    (ht : t.terminal.tightness? = some level.tightness) : Stops level.operand (t :: ts) := by
  rw [stops_cons, ht, level.tightness_operand]
  rintro n ⟨⟩
  exact Nat.lt_succ_self _

theorem BinaryOp.tightness?_eq (op : BinaryOp) :
    (Terminal.punct op.punct).tightness? = some op.level.tightness := by
  cases op <;> rfl

theorem LogicalOp.tightness?_eq (op : LogicalOp) :
    (Terminal.keyword op.keyword).tightness? = some op.level.tightness := by
  cases op <;> rfl

/-- Where an expression of a level ends, no operator of that level is in view. -/
theorem operators_of_stops {level : Grammar.Level} {t : Token} {ts : List Token}
    (h : Stops (.operation level) (t :: ts)) : level.operators t.terminal = none := by
  rw [stops_cons] at h
  cases hop : level.operators t.terminal with
  | none => rfl
  | some node =>
    have hn : t.terminal.tightness? = some level.tightness := by
      obtain ⟨op, rfl, ht, -⟩ | ⟨op, rfl, ht, -⟩ := Grammar.Level.of_operators hop
      · rw [ht, op.tightness?_eq]
      · rw [ht, op.tightness?_eq]
    exact absurd (h _ hn) (Nat.lt_irrefl _)

end Lox
