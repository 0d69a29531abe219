import Lox.Proofs.Syntax.Facing

/-!
# The rules of expressions read every expression

* `Terminal.begins`, **`Grammar.Expression.begins`**: the token an expression begins with;
* `Expr.Same`: two trees differ in the numbers of their occurrences alone;
* `AcceptedAt`: the rule of a rank reads a row of tokens as a tree, for the left-associative ranks
  as what the rest of the loop starts with;
* `acceptedAt_binary`, `acceptedAt_call`, …: one lemma for each form of expression;
* **`Grammar.Expression.acceptedAt`**: every expression of the grammar is read.
-/

namespace Lox

open Lox.Parser

/-! ## The first token -/

/-- A call begins with the token. -/
def Terminal.begins : Terminal → Bool
  | .number | .string | .identifier | .punct .leftParen => true
  | .keyword k =>
    match k with
    | .true | .false | .nil | .this | .super => true
    | _ => false
  | _ => false

theorem Literal.begins_kind (value : Literal) : value.kind.terminal.begins = true := by
  cases value with
  | boolean b => cases b <;> rfl
  | number _ | string _ | nil => rfl

namespace Grammar

/-- An expression of the rank may begin with the token. -/
def Rank.Begins (rank : Rank) (terminal : Terminal) : Prop :=
  terminal.begins = true ∨ rank.tightness ≤ 7 ∧ ∃ op : UnaryOp, terminal = op.terminal

/-- The first of the tokens is one that an expression of the rank may begin with. -/
def BeginsWith (rank : Rank) (ts : List Token) : Prop :=
  ∃ t us, ts = t :: us ∧ rank.Begins t.terminal

theorem BeginsWith.of_begins {rank : Rank} {t : Token} {ts : List Token}
    (h : t.terminal.begins = true) : BeginsWith rank (t :: ts) := ⟨t, ts, rfl, .inl h⟩

theorem BeginsWith.of_literal {rank : Rank} {t : Token} {ts : List Token} {value : Literal}
    (ht : t.kind = value.kind) : BeginsWith rank (t :: ts) := by
  refine .of_begins ?_
  rw [Token.terminal, ht]
  exact value.begins_kind

theorem BeginsWith.of_terminal {rank : Rank} {t : Token} {ts : List Token} {terminal : Terminal}
    (ht : t.terminal = terminal) (hbegins : terminal.begins = true) : BeginsWith rank (t :: ts) :=
  .of_begins (ht ▸ hbegins)

theorem BeginsWith.append {rank rank' : Rank} {ts : List Token} (h : BeginsWith rank ts)
    (hr : rank'.tightness ≤ rank.tightness) (us : List Token) : BeginsWith rank' (ts ++ us) := by
  obtain ⟨t, vs, rfl, ht⟩ := h
  refine ⟨t, vs ++ us, rfl, ht.imp_right fun hop => ?_⟩
  exact ⟨Nat.le_trans hr hop.1, hop.2⟩

theorem BeginsWith.mono {rank rank' : Rank} {ts : List Token} (h : BeginsWith rank ts)
    (hr : rank'.tightness ≤ rank.tightness) : BeginsWith rank' ts := by
  have := h.append hr []
  rwa [List.append_nil] at this

/-- **The token an expression begins with.** -/
theorem Expression.begins {rank : Rank} {ts : List Token} {e : Expr} (h : Expression rank ts e) :
    BeginsWith rank ts := by
  match h with
  | .literal hk => exact .of_literal hk
  | .this hk | .super hk _ _ => exact .of_terminal hk.terminal rfl
  | .variable hk | .assign hk _ _ => exact .of_terminal hk.terminal rfl
  | .grouping ho _ _ => exact .of_terminal ho.terminal rfl
  | .unary ht _ => exact ⟨_, _, rfl, .inr ⟨Nat.le_refl _, _, ht⟩⟩
  | .callPrimary he => exact he.begins.mono (Nat.le_succ _)
  | .call he _ _ _ _ =>
    rw [List.append_assoc]
    exact he.begins.append (Nat.le_refl _) _
  | .get he _ _ => exact he.begins.append (Nat.le_refl _) _
  | .unaryCall he => exact he.begins.mono (Nat.le_succ _)
  | .operand he =>
    refine he.begins.mono ?_
    rw [Level.tightness_operand]
    exact Nat.le_succ _
  | .binary _ he _ _ | .logical _ he _ _ => exact he.begins.append (Nat.le_refl _) _
  | .disjunction he => exact he.begins.mono (Nat.zero_le _)
  | .set he _ _ _ _ => exact he.begins.append (Nat.zero_le _) _
termination_by structural h

theorem Listed.begins {ts : List Token} {es : List Expr} (h : Listed ts es) :
    BeginsWith .expression ts := by
  cases h with
  | one he => exact he.begins
  | more he _ _ => exact he.begins.append (Nat.le_refl _) _

end Grammar

/-! ## What it is to be read -/

/-- The trees differ in the numbers of their occurrences alone. -/
def Expr.Same (e f : Expr) : Prop := e.unnumbered = f.unnumbered

/-- The rule for the operands of a level. -/
def Grammar.Level.operandRule : Grammar.Level → Parser Expr → Nat → Parser Expr
  | disjunction => Parser.conjunction
  | conjunction => Parser.equality
  | equality => Parser.comparison
  | comparison => Parser.term
  | sum => Parser.factor
  | product => Parser.unary

/-- The rule for a level. -/
def Grammar.Level.rule (level : Grammar.Level) (nested : Parser Expr) (fuel : Nat) : Parser Expr :=
  chain level.operators (level.operandRule nested fuel) fuel

/-- The rule of the rank reads the tokens as the tree, whatever the fuel. Where the rule goes on in
a loop, it comes to the loop with the tree in hand. -/
def AcceptedAt : Grammar.Rank → List Token → Expr → Prop
  | .expression, ts, e => ∀ (n : Nat) (rest : List Token), Stops .expression rest →
    Accepts (expression n) ts rest (e.Same ·)
  | .operation level, ts, e => ∀ (n fuel : Nat) (rest : List Token), Stops level.operand rest →
    ∀ (c : Cursor) (ok : Expr → Cursor → Prop), c.Faces (ts ++ rest) →
      (∀ e' (d : Cursor) (k : Nat), e.Same e' → d.Faces rest →
        Ensures (chainFrom level.operators (level.operandRule (expression n) fuel) e' k) d ok
          OutOfFuel) →
      Ensures (level.rule (expression n) fuel) c ok OutOfFuel
  | .unary, ts, e => ∀ (n fuel : Nat) (rest : List Token), Stops .unary rest →
    Accepts (unary (expression n) fuel) ts rest (e.Same ·)
  | .call, ts, e => ∀ (n fuel : Nat) (rest : List Token) (c : Cursor) (ok : Expr → Cursor → Prop),
    c.Faces (ts ++ rest) →
      (∀ e' (d : Cursor) (k : Nat), e.Same e' → d.Faces rest →
        Ensures (callFrom (expression n) e' k) d ok OutOfFuel) →
      Ensures (call (expression n) fuel) c ok OutOfFuel
  | .primary, ts, e => ∀ (n : Nat) (rest : List Token),
    Accepts (primary (expression n)) ts rest (e.Same ·)

/-! ## Things that need no operator -/

theorem Terminal.ne_endOfInput_of_begins {terminal : Terminal} (h : terminal.begins = true) :
    terminal ≠ .endOfInput := by
  rintro rfl
  cases h

theorem acceptedAt_literal {t : Token} {value : Literal} (ht : t.kind = value.kind) :
    AcceptedAt .primary [t] (.literal value) := by
  intro n rest c hc
  have hend : t.terminal ≠ .endOfInput :=
    Terminal.ne_endOfInput_of_begins (by rw [Token.terminal, ht]; exact value.begins_kind)
  have done : ∀ d : Cursor, d.Faces rest → Ensures (pure (Expr.literal value)) d
      (fun e d => (Expr.literal value).Same e ∧ d.Faces rest) OutOfFuel := fun d hd => ⟨rfl, hd⟩
  rw [primary, ensures_bind, ensures_get, hc.current, ht]
  cases value with
  | boolean b => cases b <;> exact hc.pass hend done
  | number _ | string _ | nil => exact hc.pass hend done

theorem acceptedAt_variable {t : Token} (id : ExprId) (ht : t.IsName) :
    AcceptedAt .primary [t] (.variable ⟨id, t⟩) := by
  intro n rest c hc
  rw [primary, ensures_bind, ensures_get, hc.current, ht]
  refine hc.pass ht.ne_endOfInput fun d hd => ?_
  refine hd.freshId fun id' d hd => ?_
  exact ⟨rfl, hd⟩

theorem acceptedAt_this {t : Token} (id : ExprId) (ht : t.IsWord .this) :
    AcceptedAt .primary [t] (.this ⟨id, t⟩) := by
  intro n rest c hc
  rw [primary, ensures_bind, ensures_get, hc.current, ht]
  refine hc.pass ht.ne_endOfInput fun d hd => ?_
  refine hd.freshId fun id' d hd => ?_
  exact ⟨rfl, hd⟩

theorem acceptedAt_super {t dot method : Token} (id : ExprId) (ht : t.IsWord .super)
    (hdot : dot.IsMark .dot) (hmethod : method.IsName) :
    AcceptedAt .primary [t, dot, method] (.super ⟨id, t⟩ method) := by
  intro n rest c hc
  rw [primary, ensures_bind, ensures_get, hc.current, ht]
  refine hc.pass ht.ne_endOfInput fun d hd => ?_
  refine hd.mark hdot fun d hd => ?_
  refine hd.name hmethod fun d hd => ?_
  refine hd.freshId fun id' d hd => ?_
  exact ⟨rfl, hd⟩

theorem stops_mark {rank : Grammar.Rank} {t : Token} {ts : List Token} {p : Punct}
    (ht : t.IsMark p) (hp : (Terminal.punct p).tightness? = none) : Stops rank (t :: ts) := by
  rw [stops_cons, ht.terminal, hp]
  simp

theorem acceptedAt_grouping {opening closing : Token} {ts : List Token} {e : Expr}
    (ho : opening.IsMark .leftParen) (he : AcceptedAt .expression ts e)
    (hc : closing.IsMark .rightParen) :
    AcceptedAt .primary (opening :: ts ++ [closing]) (.grouping e) := by
  intro n rest c hface
  simp only [List.append_assoc, List.cons_append, List.nil_append] at hface
  rw [primary, ensures_bind, ensures_get, hface.current, ho]
  refine hface.pass ho.ne_endOfInput fun d hd => ?_
  refine (he n _ (stops_mark hc rfl)).bind hd fun e' d hsame hd => ?_
  refine hd.mark hc fun d hd => ?_
  exact ⟨congrArg Expr.grouping hsame, hd⟩

/-! ## Calls and properties -/

/-- The rule reads the tokens as further arguments, up to the closing parenthesis. -/
def AcceptedListed (ts : List Token) (es : List Expr) : Prop :=
  ∀ (n fuel : Nat) (read : Array Expr) (closing : Token) (rest : List Token),
    closing.IsMark .rightParen → read.size + es.length ≤ maxListed →
    Accepts (argumentsFrom (expression n) read fuel) ts (closing :: rest)
      (fun r => ∃ fs, r = read.toList ++ fs ∧ Expr.unnumberedAll es = Expr.unnumberedAll fs)

/-- The rule reads the tokens and a closing parenthesis as the arguments of a call. -/
def AcceptedArguments (ts : List Token) (es : List Expr) : Prop :=
  ∀ (n fuel : Nat) (closing : Token) (rest : List Token), closing.IsMark .rightParen →
    es.length ≤ maxListed →
    Accepts (arguments (expression n) fuel) (ts ++ [closing]) rest
      (fun r => Expr.unnumberedAll es = Expr.unnumberedAll r.1 ∧ r.2 = closing)

theorem acceptedListed_one {ts : List Token} {e : Expr} (he : AcceptedAt .expression ts e) :
    AcceptedListed ts [e] := by
  intro n fuel read closing rest hclosing hcount c hc
  cases fuel with
  | zero => exact rfl
  | succ fuel =>
    rw [argumentsFrom, if_neg (by simp at hcount; omega)]
    refine (he n _ (stops_mark hclosing rfl)).bind hc fun e' d hsame hd => ?_
    have hne : closing.terminal ≠ .punct .comma := by
      simp [hclosing.terminal]
    refine hd.refused hne ⟨⟨[e'], by simp, ?_⟩, hd⟩
    rw [Expr.unnumberedAll, Expr.unnumberedAll, hsame]
    rfl

theorem acceptedListed_more {ts us : List Token} {comma : Token} {e : Expr} {es : List Expr}
    (he : AcceptedAt .expression ts e) (hcomma : comma.IsMark .comma)
    (hes : AcceptedListed us es) : AcceptedListed (ts ++ comma :: us) (e :: es) := by
  intro n fuel read closing rest hclosing hcount c hc
  rw [List.length_cons] at hcount
  cases fuel with
  | zero => exact rfl
  | succ fuel =>
    rw [List.append_assoc] at hc
    rw [argumentsFrom, if_neg (by omega)]
    refine (he n _ (stops_mark hcomma rfl)).bind hc fun e' d hsame hd => ?_
    refine hd.accepted hcomma.terminal (by simp) fun d hd => ?_
    have hsize : (read.push e').size + es.length ≤ maxListed := by
      rw [Array.size_push]
      omega
    refine Ensures.mono (hes n fuel _ closing rest hclosing hsize d hd) ?_ (fun _ _ h => h)
    rintro _ d' - ⟨⟨fs, rfl, hfs⟩, hd⟩
    refine ⟨⟨e' :: fs, by simp, ?_⟩, hd⟩
    rw [Expr.unnumberedAll, Expr.unnumberedAll, hfs, hsame]

theorem acceptedArguments_none : AcceptedArguments [] [] := by
  intro n fuel closing rest hclosing _ c hc
  rw [arguments]
  refine hc.peek ?_
  rw [if_pos (by rw [hclosing.terminal]; rfl)]
  refine hc.mark hclosing fun d hd => ?_
  exact ⟨⟨rfl, rfl⟩, hd⟩

theorem acceptedArguments_some {ts : List Token} {es : List Expr} (hes : AcceptedListed ts es)
    (hbegins : Grammar.BeginsWith .expression ts) : AcceptedArguments ts es := by
  intro n fuel closing rest hclosing hcount c hc
  obtain ⟨t, us, rfl, hbegins⟩ := hbegins
  rw [List.append_assoc, List.cons_append] at hc
  have hne : t.terminal ≠ .punct .rightParen := by
    intro ht
    obtain h | ⟨-, op, h⟩ := hbegins
    · rw [ht] at h
      cases h
    · rw [ht] at h
      cases op <;> cases h
  rw [arguments]
  refine hc.peek ?_
  rw [if_neg (by simpa using hne)]
  have hlisted := hes n fuel #[] closing rest hclosing (by simpa using hcount)
  refine hlisted.bind hc ?_
  rintro _ d ⟨fs, rfl, hfs⟩ hd
  refine hd.mark hclosing fun d hd => ?_
  exact ⟨⟨hfs, rfl⟩, hd⟩

theorem acceptedAt_callPrimary {ts : List Token} {e : Expr} (he : AcceptedAt .primary ts e) :
    AcceptedAt .call ts e := by
  intro n fuel rest c ok hc hgo
  rw [call]
  exact (he n rest).bind hc fun e' d hsame hd => hgo e' d fuel hsame hd

theorem acceptedAt_call {ts us : List Token} {opening closing : Token} {e : Expr} {es : List Expr}
    (he : AcceptedAt .call ts e) (ho : opening.IsMark .leftParen) (hes : AcceptedArguments us es)
    (hcount : es.length ≤ maxListed) (hclosing : closing.IsMark .rightParen) :
    AcceptedAt .call (ts ++ opening :: us ++ [closing]) (.call e es closing) := by
  intro n fuel rest c ok hc hgo
  simp only [List.append_assoc, List.cons_append, List.nil_append] at hc
  refine he n fuel _ c ok hc fun e' d k hsame hd => ?_
  cases k with
  | zero => exact rfl
  | succ k =>
    rw [callFrom]
    refine hd.opens ho rfl fun d hd => ?_
    have hread := hes n k closing rest hclosing hcount
    refine hread.bind (by simpa using hd) ?_
    rintro ⟨fs, paren⟩ d ⟨hfs, rfl⟩ hd
    refine hgo _ d k ?_ hd
    rw [Expr.Same, Expr.unnumbered, Expr.unnumbered, hfs, hsame]

theorem acceptedAt_get {ts : List Token} {dot name : Token} {e : Expr}
    (he : AcceptedAt .call ts e) (hdot : dot.IsMark .dot) (hname : name.IsName) :
    AcceptedAt .call (ts ++ [dot, name]) (.get e name) := by
  intro n fuel rest c ok hc hgo
  rw [List.append_assoc] at hc
  refine he n fuel _ c ok hc fun e' d k hsame hd => ?_
  cases k with
  | zero => exact rfl
  | succ k =>
    rw [callFrom]
    refine hd.opens hdot rfl fun d hd => ?_
    refine hd.name hname fun d hd => ?_
    refine hgo _ d k ?_ hd
    rw [Expr.Same, Expr.unnumbered, Expr.unnumbered, hsame]

theorem ensures_callFrom_of_stops {n k : Nat} {e : Expr} {d : Cursor} {rest : List Token}
    (hstops : Stops .call rest) (hd : d.Faces rest) :
    Ensures (callFrom (expression n) e k) d (fun e' d' => e' = e ∧ d'.Faces rest) OutOfFuel := by
  cases k with
  | zero => exact rfl
  | succ k =>
    rw [callFrom, ensures_bind, ensures_peek]
    have hview : ∀ n ∈ d.current.terminal.tightness?, n < 8 := by
      have := hd.tokens
      rw [← this] at hstops
      exact stops_cons.mp hstops
    split <;> rename_i hk
    · rw [hk] at hview
      exact absurd (hview 8 rfl) (by decide)
    · rw [hk] at hview
      exact absurd (hview 8 rfl) (by decide)
    · exact ⟨rfl, hd⟩

/-! ## Operators -/

theorem prefixOp?_of_begins {terminal : Terminal} (h : terminal.begins = true) :
    prefixOp? terminal = none := by
  unfold prefixOp?
  split
  · cases h
  · cases h
  · rfl

theorem prefixOp?_terminal (op : UnaryOp) : prefixOp? op.terminal = some op := by
  cases op <;> rfl

theorem acceptedAt_unaryCall {ts : List Token} {e : Expr} (he : AcceptedAt .call ts e)
    (hbegins : Grammar.BeginsWith .call ts) : AcceptedAt .unary ts e := by
  intro n fuel rest hstops c hc
  cases fuel with
  | zero => exact rfl
  | succ fuel =>
    obtain ⟨t, us, rfl, ht | ⟨hle, -⟩⟩ := hbegins
    · rw [unary]
      refine hc.peek ?_
      rw [prefixOp?_of_begins ht]
      refine he n fuel rest c _ hc fun e' d k hsame hd => ?_
      refine (ensures_callFrom_of_stops (hstops.mono (by decide)) hd).mono ?_ (fun _ _ h => h)
      rintro _ d' - ⟨rfl, hd'⟩
      exact ⟨hsame, hd'⟩
    · exact absurd hle (by decide)

theorem acceptedAt_unary {op : UnaryOp} {t : Token} {ts : List Token} {e : Expr}
    (ht : t.terminal = op.terminal) (he : AcceptedAt .unary ts e) :
    AcceptedAt .unary (t :: ts) (.unary op t e) := by
  intro n fuel rest hstops c hc
  cases fuel with
  | zero => exact rfl
  | succ fuel =>
    rw [unary]
    refine hc.peek ?_
    rw [ht, prefixOp?_terminal]
    refine hc.pass (ht ▸ op.terminal_ne_endOfInput) fun d hd => ?_
    refine (he n fuel rest hstops).bind hd fun e' d hsame hd => ?_
    exact ⟨congrArg (Expr.unary op t) hsame, hd⟩

theorem accepts_of_acceptedAt (level : Grammar.Level) {ts : List Token} {e : Expr}
    (he : AcceptedAt (.operation level) ts e) (n fuel : Nat) {rest : List Token}
    (hstops : Stops (.operation level) rest) :
    Accepts (level.rule (expression n) fuel) ts rest (e.Same ·) := by
  intro c hc
  have hle : level.tightness ≤ level.operand.tightness := by
    rw [level.tightness_operand]
    exact Nat.le_succ _
  refine he n fuel rest (hstops.mono hle) c _ hc fun e' d k hsame hd => ?_
  cases k with
  | zero => exact rfl
  | succ k =>
    rw [chainFrom, ensures_bind, ensures_peek]
    have hview : Stops (.operation level) (d.current :: d.pending.filterMap Except.toOption) := by
      have := hd.tokens
      rwa [← this] at hstops
    rw [operators_of_stops hview]
    exact ⟨hsame, hd⟩

/-- An operand of a level is read where the level goes on. -/
theorem accepts_operand {level : Grammar.Level} {ts : List Token} {e : Expr}
    (he : AcceptedAt level.operand ts e) (n fuel : Nat) {rest : List Token}
    (hstops : Stops level.operand rest) :
    Accepts (level.operandRule (expression n) fuel) ts rest (e.Same ·) := by
  cases level with
  | disjunction => exact accepts_of_acceptedAt .conjunction he n fuel hstops
  | conjunction => exact accepts_of_acceptedAt .equality he n fuel hstops
  | equality => exact accepts_of_acceptedAt .comparison he n fuel hstops
  | comparison => exact accepts_of_acceptedAt .sum he n fuel hstops
  | sum => exact accepts_of_acceptedAt .product he n fuel hstops
  | product => exact he n fuel rest hstops

theorem acceptedAt_operand (level : Grammar.Level) {ts : List Token} {e : Expr}
    (he : AcceptedAt level.operand ts e) : AcceptedAt (.operation level) ts e := by
  intro n fuel rest hstops c ok hc hgo
  exact (accepts_operand he n fuel hstops).bind hc fun e' d hsame hd => hgo e' d fuel hsame hd

/-- An operator of a level with its operands. -/
theorem acceptedAt_node {level : Grammar.Level} {node : Infix} {ts us : List Token} {t : Token}
    {e f : Expr} (hop : level.operators t.terminal = some node)
    (hnode : ∀ e' f', e.Same e' → f.Same f' → (node e t f).Same (node e' t f'))
    (he : AcceptedAt (.operation level) ts e) (hf : AcceptedAt level.operand us f) :
    AcceptedAt (.operation level) (ts ++ t :: us) (node e t f) := by
  intro n fuel rest hstops c ok hc hgo
  rw [List.append_assoc, List.cons_append] at hc
  have ht : t.terminal.tightness? = some level.tightness := by
    obtain ⟨op, rfl, ht, -⟩ | ⟨op, rfl, ht, -⟩ := Grammar.Level.of_operators hop
    · rw [ht, op.tightness?_eq]
    · rw [ht, op.tightness?_eq]
  have hend : t.terminal ≠ .endOfInput := by
    intro h
    rw [h] at ht
    cases ht
  refine he n fuel _ (stops_operator ht) c ok hc fun e' d k hsame hd => ?_
  cases k with
  | zero => exact rfl
  | succ k =>
    rw [chainFrom]
    refine hd.peek ?_
    rw [hop]
    refine hd.pass hend fun d hd => ?_
    refine (accepts_operand hf n fuel hstops).bind hd fun f' d hsame' hd => ?_
    exact hgo _ d k (hnode e' f' hsame hsame') hd

theorem Grammar.Level.operators_binary (op : BinaryOp) :
    op.level.operators (.punct op.punct) = some (binaryNode op) := by
  cases op <;> rfl

theorem Grammar.Level.operators_logical (op : LogicalOp) :
    op.level.operators (.keyword op.keyword) = some (logicalNode op) := by
  cases op <;> rfl

theorem acceptedAt_binary {level : Grammar.Level} {op : BinaryOp} {ts us : List Token} {t : Token}
    {e f : Expr} (hop : op.level = level) (he : AcceptedAt (.operation level) ts e)
    (ht : t.IsMark op.punct) (hf : AcceptedAt level.operand us f) :
    AcceptedAt (.operation level) (ts ++ t :: us) (.binary e op t f) := by
  subst hop
  have hnode := Grammar.Level.operators_binary op
  rw [← ht.terminal] at hnode
  refine acceptedAt_node hnode (fun e' f' hsame hsame' => ?_) he hf
  rw [binaryNode, binaryNode, Expr.Same, Expr.unnumbered, Expr.unnumbered, hsame, hsame']

theorem acceptedAt_logical {level : Grammar.Level} {op : LogicalOp} {ts us : List Token} {t : Token}
    {e f : Expr} (hop : op.level = level) (he : AcceptedAt (.operation level) ts e)
    (ht : t.IsWord op.keyword) (hf : AcceptedAt level.operand us f) :
    AcceptedAt (.operation level) (ts ++ t :: us) (.logical e op t f) := by
  subst hop
  have hnode := Grammar.Level.operators_logical op
  rw [← ht.terminal] at hnode
  refine acceptedAt_node hnode (fun e' f' hsame hsame' => ?_) he hf
  rw [logicalNode, logicalNode, Expr.Same, Expr.unnumbered, Expr.unnumbered, hsame, hsame']

/-! ## Assignments -/

theorem acceptedAt_disjunction {ts : List Token} {e : Expr}
    (he : AcceptedAt (.operation .disjunction) ts e) : AcceptedAt .expression ts e := by
  intro n rest hstops c hc
  cases n with
  | zero => exact rfl
  | succ n =>
    rw [expression, assignment]
    refine (accepts_of_acceptedAt _ he n n (hstops.mono (Nat.zero_le _))).bind hc ?_
    intro e' d hsame hd
    obtain ⟨t, us, rfl⟩ := hd.exists_cons
    have hne : t.terminal ≠ .punct .equal := by
      intro ht
      rw [stops_cons, ht] at hstops
      exact absurd (hstops 0 rfl) (Nat.lt_irrefl _)
    exact hd.refused hne ⟨hsame, hd⟩

theorem acceptedAt_assignTo {ts us : List Token} {target value e : Expr} {equals : Token}
    (htarget : AcceptedAt (.operation .disjunction) ts target) (hequals : equals.IsMark .equal)
    (hvalue : AcceptedAt .expression us value)
    (hassign : ∀ target' value' (d : Cursor) (rest : List Token), target.Same target' →
      value.Same value' → d.Faces rest →
      Ensures (assignTo target' equals value') d (fun e' d' => e.Same e' ∧ d'.Faces rest) OutOfFuel) :
    AcceptedAt .expression (ts ++ equals :: us) e := by
  intro n rest hstops c hc
  cases n with
  | zero => exact rfl
  | succ n =>
    rw [List.append_assoc, List.cons_append] at hc
    have hview : Stops (.operation .disjunction) (equals :: (us ++ rest)) := by
      rw [stops_cons, hequals.terminal]
      rintro m ⟨⟩
      exact Nat.one_pos
    rw [expression, assignment]
    refine (accepts_of_acceptedAt _ htarget n n hview).bind hc fun target' d hsame hd => ?_
    refine hd.accepted hequals.terminal (by simp) fun d hd => ?_
    refine (hvalue n rest hstops).bind hd fun value' d hsame' hd => ?_
    exact hassign target' value' d rest hsame hsame' hd

theorem acceptedAt_disjunction_of_call {ts : List Token} {e : Expr} (he : AcceptedAt .call ts e)
    (hbegins : Grammar.BeginsWith .call ts) : AcceptedAt (.operation .disjunction) ts e := by
  have hunary := acceptedAt_unaryCall he hbegins
  have hproduct := acceptedAt_operand .product hunary
  have hsum := acceptedAt_operand .sum hproduct
  have hcomparison := acceptedAt_operand .comparison hsum
  have hequality := acceptedAt_operand .equality hcomparison
  have hconjunction := acceptedAt_operand .conjunction hequality
  exact acceptedAt_operand .disjunction hconjunction

theorem acceptedAt_assign {t equals : Token} {ts : List Token} {e : Expr} (id : ExprId)
    (ht : t.IsName) (hequals : equals.IsMark .equal) (he : AcceptedAt .expression ts e) :
    AcceptedAt .expression (t :: equals :: ts) (.assign ⟨id, t⟩ e) := by
  have hbegins : Grammar.BeginsWith .call [t] :=
    .of_begins (by rw [ht.terminal]; rfl)
  have htarget := acceptedAt_disjunction_of_call
    (acceptedAt_callPrimary (acceptedAt_variable id ht)) hbegins
  refine acceptedAt_assignTo htarget hequals he ?_
  intro target value d rest htarget hvalue hd
  cases target <;> rw [Expr.Same, Expr.unnumbered, Expr.unnumbered] at htarget <;> cases htarget
  rename_i use
  refine hd.freshId fun id' d hd => ⟨?_, hd⟩
  rw [Expr.Same, Expr.unnumbered, Expr.unnumbered, hvalue]
  rfl

theorem acceptedAt_set {ts us : List Token} {dot name equals : Token} {e f : Expr}
    (he : AcceptedAt .call ts e) (hbegins : Grammar.BeginsWith .call ts) (hdot : dot.IsMark .dot)
    (hname : name.IsName) (hequals : equals.IsMark .equal) (hf : AcceptedAt .expression us f) :
    AcceptedAt .expression (ts ++ dot :: name :: equals :: us) (.set e name f) := by
  have htarget := acceptedAt_disjunction_of_call (acceptedAt_get he hdot hname)
    (hbegins.append (Nat.le_refl _) _)
  have hset : AcceptedAt .expression ((ts ++ [dot, name]) ++ equals :: us) (.set e name f) := by
    refine acceptedAt_assignTo htarget hequals hf ?_
    intro target value d rest htarget hvalue hd
    cases target <;> rw [Expr.Same, Expr.unnumbered, Expr.unnumbered] at htarget <;>
      first | cases htarget | injection htarget
    rename_i object _ hobject hname
    refine ⟨?_, hd⟩
    rw [Expr.Same, Expr.unnumbered, Expr.unnumbered, hvalue, hobject, hname]
  rwa [List.append_assoc] at hset

/-! ## All expressions -/

mutual

/-- **Every expression of the grammar is read as the tree it stands for.** -/
theorem Grammar.Expression.acceptedAt {rank : Grammar.Rank} {ts : List Token} {e : Expr}
    (h : Grammar.Expression rank ts e) : AcceptedAt rank ts e := by
  match h with
  | .literal ht => exact acceptedAt_literal ht
  | .variable ht => exact acceptedAt_variable _ ht
  | .this ht => exact acceptedAt_this _ ht
  | .super ht hdot hmethod => exact acceptedAt_super _ ht hdot hmethod
  | .grouping ho he hc => exact acceptedAt_grouping ho he.acceptedAt hc
  | .callPrimary he => exact acceptedAt_callPrimary he.acceptedAt
  | .call he ho hes hcount hc => exact acceptedAt_call he.acceptedAt ho hes.accepted hcount hc
  | .get he hdot hname => exact acceptedAt_get he.acceptedAt hdot hname
  | .unaryCall he => exact acceptedAt_unaryCall he.acceptedAt he.begins
  | .unary ht he => exact acceptedAt_unary ht he.acceptedAt
  | .operand he => exact acceptedAt_operand _ he.acceptedAt
  | .binary hop he ht hf => exact acceptedAt_binary hop he.acceptedAt ht hf.acceptedAt
  | .logical hop he ht hf => exact acceptedAt_logical hop he.acceptedAt ht hf.acceptedAt
  | .disjunction he => exact acceptedAt_disjunction he.acceptedAt
  | .assign ht hequals he => exact acceptedAt_assign _ ht hequals he.acceptedAt
  | .set he hdot hname hequals hf =>
    exact acceptedAt_set he.acceptedAt he.begins hdot hname hequals hf.acceptedAt
termination_by structural h

theorem Grammar.Listed.accepted {ts : List Token} {es : List Expr} (h : Grammar.Listed ts es) :
    AcceptedListed ts es := by
  match h with
  | .one he => exact acceptedListed_one he.acceptedAt
  | .more he hcomma hes => exact acceptedListed_more he.acceptedAt hcomma hes.accepted
termination_by structural h

theorem Grammar.Arguments.accepted {ts : List Token} {es : List Expr}
    (h : Grammar.Arguments ts es) : AcceptedArguments ts es := by
  match h with
  | .none => exact acceptedArguments_none
  | .some hes => exact acceptedArguments_some hes.accepted hes.begins
termination_by structural h

end

end Lox
