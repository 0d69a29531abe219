import Lox.Proofs.Syntax.AcceptExpression
import Lox.Proofs.Syntax.Parse

/-!
# The rules of statements read every program

* `Terminal.startsRow`, `Grammar.Declaration.begins`: the token a declaration begins with;
* `AcceptedStatement`, `AcceptedDeclarations`, …: the rules read a row of tokens as a tree;
* one lemma for each form of statement, such as `acceptedStatement_forLoop`;
* **`Grammar.Declarations.accepted`**: every program of the grammar is read;
* **`parse_of_declarations`**: the parser returns the tree of every program of the grammar.
-/

namespace Lox

open Lox.Parser

/-! ## First tokens -/

/-- An expression begins with the token. -/
def Terminal.beginsExpression (terminal : Terminal) : Bool :=
  terminal.begins || terminal == .punct .minus || terminal == .punct .bang

theorem Grammar.BeginsWith.expression {rank : Grammar.Rank} {ts : List Token}
    (h : Grammar.BeginsWith rank ts) :
    ∃ t us, ts = t :: us ∧ t.terminal.beginsExpression = true := by
  obtain ⟨t, us, rfl, ht | ⟨-, op, ht⟩⟩ := h
  · exact ⟨t, us, rfl, by rw [Terminal.beginsExpression, ht]; rfl⟩
  · refine ⟨t, us, rfl, ?_⟩
    rw [ht]
    cases op <;> rfl

/-- A declaration begins with the token. Nothing that ends a row of declarations does. -/
def Terminal.startsRow : Terminal → Bool
  | .endOfInput | .punct .rightBrace | .keyword .else => false
  | _ => true

theorem Terminal.startsRow_of_beginsExpression {terminal : Terminal}
    (h : terminal.beginsExpression = true) : terminal.startsRow = true := by
  unfold startsRow
  split
  · cases h
  · cases h
  · cases h
  · rfl

/-- The tokens do not begin with `else`. -/
def NoElse (ts : List Token) : Prop := ∀ t ∈ ts.head?, t.terminal ≠ .keyword .else

theorem noElse_cons {t : Token} {ts : List Token} : NoElse (t :: ts) ↔ t.terminal ≠ .keyword .else := by
  simp [NoElse]

/-- The first of the tokens is one that a declaration may begin with. -/
def StartsRow (ts : List Token) : Prop := ∃ t us, ts = t :: us ∧ t.terminal.startsRow = true

theorem startsRow_word {t : Token} {ts : List Token} {k : Keyword} (ht : t.IsWord k)
    (hk : (Terminal.keyword k).startsRow = true) : StartsRow (t :: ts) :=
  ⟨t, ts, rfl, by rwa [ht.terminal]⟩

theorem Grammar.ExpressionStatement.begins {ts : List Token} {s : Stmt}
    (h : Grammar.ExpressionStatement ts s) :
    ∃ t us, ts = t :: us ∧ t.terminal.beginsExpression = true := by
  cases h with
  | mk he _ => exact (he.begins.append (Nat.le_refl _) _).expression

theorem Grammar.Variable.begins {ts : List Token} {s : Stmt} (h : Grammar.Variable ts s) :
    StartsRow ts := by
  cases h with
  | mk hword _ _ _ => exact startsRow_word hword rfl

theorem Grammar.Statement.begins {ts : List Token} {s : Stmt} (h : Grammar.Statement ts s) :
    StartsRow ts := by
  cases h with
  | expression hs =>
    obtain ⟨t, us, rfl, ht⟩ := hs.begins
    exact ⟨t, us, rfl, Terminal.startsRow_of_beginsExpression ht⟩
  | block ho _ _ => exact ⟨_, _, rfl, by rw [ho.terminal]; rfl⟩
  | print hword | ifThen hword | ifElse hword | whileLoop hword | forLoop hword | «return» hword
  | «break» hword | «continue» hword => exact startsRow_word hword rfl

theorem Grammar.Declaration.begins {ts : List Token} {s : Stmt} (h : Grammar.Declaration ts s) :
    StartsRow ts := by
  cases h with
  | «class» hword | function hword => exact startsRow_word hword rfl
  | «variable» hs => exact hs.begins
  | statement hs => exact hs.begins

/-! ## Parts of statements -/

/-- The statements differ in the numbers of their occurrences alone. -/
def Stmt.Same (s s' : Stmt) : Prop := s.unnumbered = s'.unnumbered

theorem accepts_expressionStatement {ts : List Token} {s : Stmt}
    (h : Grammar.ExpressionStatement ts s) (n : Nat) (rest : List Token) :
    Accepts (expressionStatement n) ts rest (s.Same ·) := by
  intro c hc
  cases h with
  | mk he hsemicolon =>
    rw [List.append_assoc] at hc
    rw [expressionStatement]
    refine (he.acceptedAt n _ (stops_mark hsemicolon rfl)).bind hc fun e' d hsame hd => ?_
    refine hd.mark hsemicolon fun d hd => ?_
    exact ⟨congrArg Stmt.expression hsame, hd⟩

/-- An expression in front of a mark that neither ends up in it nor begins one. -/
theorem accepts_optional {ts : List Token} {o : Option Expr} (h : Grammar.Optional ts o)
    (n : Nat) {stop : Punct} {t : Token} {rest : List Token} (ht : t.IsMark stop)
    (hstop : (Terminal.punct stop).tightness? = none)
    (hbegins : (Terminal.punct stop).beginsExpression = false) :
    Accepts (optionalExpression stop n) ts (t :: rest)
      (fun o' => o.map Expr.unnumbered = o'.map Expr.unnumbered) := by
  intro c hc
  cases h with
  | none =>
    rw [optionalExpression]
    refine hc.peek ?_
    rw [if_pos (by rw [ht.terminal]; exact beq_self_eq_true _)]
    exact ⟨rfl, hc⟩
  | some he =>
    obtain ⟨u, us, rfl, hu⟩ := he.begins.expression
    have hne : u.terminal ≠ .punct stop := by
      intro h
      rw [h, hbegins] at hu
      cases hu
    rw [optionalExpression]
    refine hc.peek ?_
    rw [if_neg (by simpa using hne)]
    refine ((he.acceptedAt n _ (stops_mark ht hstop)).map ?_) c hc
    intro e' hsame
    exact congrArg some hsame

theorem accepts_varDeclaration {ts : List Token} {s : Stmt} (h : Grammar.Variable ts s) :
    ∃ word us, ts = word :: us ∧ word.IsWord .var ∧
      ∀ (n : Nat) (rest : List Token), Accepts (varDeclaration n) us rest (s.Same ·) := by
  cases h with
  | @mk word name ts semicolon value hword hname hvalue hsemicolon =>
    refine ⟨word, _, rfl, hword, fun n rest c hc => ?_⟩
    simp only [List.append_eq, List.cons_append, List.append_assoc, List.nil_append] at hc
    rw [varDeclaration]
    refine hc.name hname fun d hd => ?_
    have done {value' : Option Expr} {d : Cursor} (hd : d.Faces (semicolon :: rest))
        (hsame : value.map Expr.unnumbered = value'.map Expr.unnumbered) :
        Ensures (do
            let _ ← expectMark .semicolon .afterVariableDeclaration
            return Stmt.var name value') d
          (fun s d => (Stmt.var name value).Same s ∧ d.Faces rest) OutOfFuel :=
      hd.mark hsemicolon fun d hd => ⟨congrArg (Stmt.var name) hsame, hd⟩
    cases hvalue with
    | none =>
      refine hd.refused ?_ (done hd rfl)
      simp [hsemicolon.terminal]
    | @some equals us e hequals he =>
      refine hd.accepted hequals.terminal (by simp) fun d hd => ?_
      have hvalue : Accepts (some <$> expression n) us (semicolon :: rest)
          (fun o => (some e).map Expr.unnumbered = o.map Expr.unnumbered) :=
        (he.acceptedAt n _ (stops_mark hsemicolon rfl)).map fun e' hsame => congrArg some hsame
      exact hvalue.bind hd fun value' d hsame hd => done hd hsame

theorem accepts_forInitializer {ts : List Token} {o : Option Stmt} (h : Grammar.Initializer ts o)
    (n : Nat) (rest : List Token) :
    Accepts (forInitializer n) ts rest
      (fun o' => Stmt.unnumberedOption o = Stmt.unnumberedOption o') := by
  have some_same {s s' : Stmt} (h : s.Same s') :
      Stmt.unnumberedOption (some s) = Stmt.unnumberedOption (some s') := by
    rw [Stmt.unnumberedOption, Stmt.unnumberedOption, h]
  intro c hc
  rw [forInitializer]
  cases h with
  | none hsemicolon =>
    refine hc.opens hsemicolon rfl fun d hd => ?_
    exact ⟨rfl, hd⟩
  | «variable» hs =>
    obtain ⟨word, us, rfl, hword, haccepts⟩ := accepts_varDeclaration hs
    refine hc.word hword rfl fun d hd => ?_
    refine Accepts.map (haccepts n rest) ?_ d hd
    exact fun s' hsame => some_same hsame
  | expression hs =>
    obtain ⟨t, us, rfl, ht⟩ := hs.begins
    refine hc.peek ?_
    split <;> rename_i hk
    · rw [hk] at ht
      cases ht
    · rw [hk] at ht
      cases ht
    · refine Accepts.map (accepts_expressionStatement hs n rest) ?_ c hc
      exact fun s' hsame => some_same hsame

/-! ## Statements -/

/-- The rule reads the tokens as the statement. An `else` behind it must not belong to it. -/
def AcceptedStatement (ts : List Token) (s : Stmt) : Prop :=
  ∀ (n : Nat) (rest : List Token), (s.endsOpen = true → NoElse rest) →
    Accepts (statementRule (declaration n) (statement n) n) ts rest (s.Same ·)

/-- The rule reads the tokens as the declaration. -/
def AcceptedDeclaration (ts : List Token) (s : Stmt) : Prop :=
  ∀ (n : Nat) (rest : List Token), NoElse rest →
    Accepts (declarationRule (declaration n) (statement n) n) ts rest (s.Same ·)

/-- The rule reads the tokens as a row of declarations, up to a token that no declaration begins
with. -/
def AcceptedDeclarations (ts : List Token) (ss : List Stmt) : Prop :=
  ∀ (n fuel : Nat) (read : Array Stmt) (t : Token) (rest : List Token),
    t.terminal.startsRow = false → t.terminal ≠ .keyword .else →
    Accepts (declarationsFrom (declaration n) t.terminal read fuel) ts (t :: rest)
      (fun r => ∃ ss', r = read.toList ++ ss' ∧ Stmt.unnumberedAll ss = Stmt.unnumberedAll ss')

theorem AcceptedStatement.accepts {ts : List Token} {s : Stmt} (h : AcceptedStatement ts s)
    (n : Nat) {rest : List Token} (hrest : s.endsOpen = true → NoElse rest) :
    Accepts (statement n) ts rest (s.Same ·) := by
  cases n with
  | zero => exact fun c _ => rfl
  | succ n =>
    rw [statement]
    exact h n rest hrest

theorem AcceptedDeclaration.accepts {ts : List Token} {s : Stmt} (h : AcceptedDeclaration ts s)
    (n : Nat) {rest : List Token} (hrest : NoElse rest) :
    Accepts (declaration n) ts rest (fun o => ∃ s', o = some s' ∧ s.Same s') := by
  intro c hc
  cases n with
  | zero => exact rfl
  | succ n =>
    have hrule := h n rest hrest c hc
    rw [declaration, Ensures, recovering_eq]
    cases hr : declarationRule (declaration n) (statement n) n c with
    | ok s' d =>
      obtain ⟨hsame, hd⟩ := hrule.ok_of_eq hr
      exact ⟨⟨s', rfl, hsame⟩, hd⟩
    | error e d =>
      obtain rfl : e = .outOfFuel := hrule.halt_of_eq hr
      exact rfl

theorem acceptedStatement_expression {ts : List Token} {s : Stmt}
    (h : Grammar.ExpressionStatement ts s) : AcceptedStatement ts s := by
  intro n rest _ c hc
  obtain ⟨t, us, rfl, ht⟩ := h.begins
  rw [statementRule]
  refine hc.peek ?_
  split <;> rename_i hk
  · rw [hk] at ht; cases ht
  · rw [hk] at ht; cases ht
  · rw [hk] at ht; cases ht
  · rw [hk] at ht; cases ht
  · rw [hk] at ht; cases ht
  · rw [hk] at ht; cases ht
  · rw [hk] at ht; cases ht
  · rw [hk] at ht; cases ht
  · exact accepts_expressionStatement h n rest c hc

theorem acceptedStatement_print {word semicolon : Token} {ts : List Token} {e : Expr}
    (hword : word.IsWord .print) (he : Grammar.Expression .expression ts e)
    (hsemicolon : semicolon.IsMark .semicolon) :
    AcceptedStatement (word :: ts ++ [semicolon]) (.print e) := by
  intro n rest _ c hc
  simp only [List.append_assoc, List.cons_append, List.nil_append] at hc
  rw [statementRule]
  refine hc.word hword rfl fun d hd => ?_
  rw [printStatement]
  refine (he.acceptedAt n _ (stops_mark hsemicolon rfl)).bind hd fun e' d hsame hd => ?_
  refine hd.mark hsemicolon fun d hd => ?_
  exact ⟨congrArg Stmt.print hsame, hd⟩

theorem acceptedStatement_return {word semicolon : Token} {ts : List Token} {value : Option Expr}
    (hword : word.IsWord .return) (hvalue : Grammar.Optional ts value)
    (hsemicolon : semicolon.IsMark .semicolon) :
    AcceptedStatement (word :: ts ++ [semicolon]) (.return word value) := by
  intro n rest _ c hc
  simp only [List.append_assoc, List.cons_append, List.nil_append] at hc
  rw [statementRule]
  refine hc.word hword rfl fun d hd => ?_
  rw [returnStatement]
  refine (accepts_optional hvalue n hsemicolon rfl rfl).bind hd fun value' d hsame hd => ?_
  refine hd.mark hsemicolon fun d hd => ?_
  exact ⟨congrArg (Stmt.return word) hsame, hd⟩

theorem acceptedStatement_break {word semicolon : Token} (hword : word.IsWord .break)
    (hsemicolon : semicolon.IsMark .semicolon) :
    AcceptedStatement [word, semicolon] (.break word) := by
  intro n rest _ c hc
  rw [statementRule]
  refine hc.word hword rfl fun d hd => ?_
  refine hd.mark hsemicolon fun d hd => ?_
  exact ⟨rfl, hd⟩

theorem acceptedStatement_continue {word semicolon : Token} (hword : word.IsWord .continue)
    (hsemicolon : semicolon.IsMark .semicolon) :
    AcceptedStatement [word, semicolon] (.continue word) := by
  intro n rest _ c hc
  rw [statementRule]
  refine hc.word hword rfl fun d hd => ?_
  refine hd.mark hsemicolon fun d hd => ?_
  exact ⟨rfl, hd⟩

theorem AcceptedDeclarations.accepts_block {ts : List Token} {body : List Stmt}
    (h : AcceptedDeclarations ts body) (n fuel : Nat) {closing : Token}
    (hclosing : closing.IsMark .rightBrace) (rest : List Token) :
    Accepts (block (declaration n) fuel) (ts ++ [closing]) rest
      (fun r => Stmt.unnumberedAll body = Stmt.unnumberedAll r.1 ∧ r.2 = closing) := by
  intro c hc
  have ht := hclosing.terminal
  have hbody := h n fuel #[] closing rest (by rw [ht]; rfl) (by simp [ht])
  rw [ht] at hbody
  rw [block]
  refine hbody.bind (by simpa using hc) ?_
  rintro _ d ⟨ss, rfl, hss⟩ hd
  refine hd.mark hclosing fun d hd => ?_
  exact ⟨⟨hss, rfl⟩, hd⟩

theorem acceptedStatement_block {opening closing : Token} {ts : List Token} {body : List Stmt}
    (ho : opening.IsMark .leftBrace) (hbody : AcceptedDeclarations ts body)
    (hclosing : closing.IsMark .rightBrace) :
    AcceptedStatement (opening :: ts ++ [closing]) (.block body) := by
  intro n rest _ c hc
  rw [statementRule]
  refine hc.opens ho rfl fun d hd => ?_
  refine (hbody.accepts_block n n hclosing rest).bind hd ?_
  rintro ⟨body', _⟩ d ⟨hsame, -⟩ hd
  exact ⟨congrArg Stmt.block hsame, hd⟩

theorem acceptedStatement_ifThen {word opening closing : Token} {ts us : List Token}
    {condition : Expr} {thenBranch : Stmt} (hword : word.IsWord .if)
    (ho : opening.IsMark .leftParen) (hcondition : Grammar.Expression .expression ts condition)
    (hc : closing.IsMark .rightParen) (hthen : AcceptedStatement us thenBranch) :
    AcceptedStatement (word :: opening :: ts ++ closing :: us)
      (.ifElse condition thenBranch none) := by
  intro n rest hrest c hface
  simp only [List.append_assoc, List.cons_append] at hface
  have hrest := hrest rfl
  rw [statementRule]
  refine hface.word hword rfl fun d hd => ?_
  rw [ifStatement]
  refine hd.mark ho fun d hd => ?_
  refine (hcondition.acceptedAt n _ (stops_mark hc rfl)).bind hd fun condition' d hsame hd => ?_
  refine hd.mark hc fun d hd => ?_
  refine (hthen.accepts n fun _ => hrest).bind hd fun then' d hsame' hd => ?_
  obtain ⟨t, vs, rfl⟩ := hd.exists_cons
  refine hd.refused (noElse_cons.mp hrest) ⟨?_, hd⟩
  show Stmt.unnumbered _ = Stmt.unnumbered _
  rw [Stmt.unnumbered, Stmt.unnumbered, hsame, hsame']

theorem acceptedStatement_ifElse {word opening closing other : Token} {ts us vs : List Token}
    {condition : Expr} {thenBranch elseBranch : Stmt} (hword : word.IsWord .if)
    (ho : opening.IsMark .leftParen) (hcondition : Grammar.Expression .expression ts condition)
    (hc : closing.IsMark .rightParen) (hthen : AcceptedStatement us thenBranch)
    (hclosed : thenBranch.endsOpen = false) (hother : other.IsWord .else)
    (helse : AcceptedStatement vs elseBranch) :
    AcceptedStatement (word :: opening :: ts ++ closing :: us ++ other :: vs)
      (.ifElse condition thenBranch (some elseBranch)) := by
  intro n rest hrest c hface
  simp only [List.append_assoc, List.cons_append] at hface
  rw [statementRule]
  refine hface.word hword rfl fun d hd => ?_
  rw [ifStatement]
  refine hd.mark ho fun d hd => ?_
  refine (hcondition.acceptedAt n _ (stops_mark hc rfl)).bind hd fun condition' d hsame hd => ?_
  refine hd.mark hc fun d hd => ?_
  have hthen : Accepts (statement n) us (other :: (vs ++ rest)) (thenBranch.Same ·) :=
    hthen.accepts n fun hopen => by
      rw [hclosed] at hopen
      cases hopen
  refine hthen.bind hd fun then' d hsame' hd => ?_
  refine hd.accepted hother.terminal (by simp) fun d hd => ?_
  refine (helse.accepts n hrest).bind hd fun else' d hsame'' hd => ?_
  refine ⟨?_, hd⟩
  show Stmt.unnumbered _ = Stmt.unnumbered _
  rw [Stmt.unnumbered, Stmt.unnumbered, Stmt.unnumberedOption, Stmt.unnumberedOption,
    hsame, hsame', hsame'']

theorem acceptedStatement_whileLoop {word opening closing : Token} {ts us : List Token}
    {condition : Expr} {body : Stmt} (hword : word.IsWord .while)
    (ho : opening.IsMark .leftParen) (hcondition : Grammar.Expression .expression ts condition)
    (hc : closing.IsMark .rightParen) (hbody : AcceptedStatement us body) :
    AcceptedStatement (word :: opening :: ts ++ closing :: us) (.whileLoop condition body) := by
  intro n rest hrest c hface
  simp only [List.append_assoc, List.cons_append] at hface
  rw [statementRule]
  refine hface.word hword rfl fun d hd => ?_
  rw [whileStatement]
  refine hd.mark ho fun d hd => ?_
  refine (hcondition.acceptedAt n _ (stops_mark hc rfl)).bind hd fun condition' d hsame hd => ?_
  refine hd.mark hc fun d hd => ?_
  refine (hbody.accepts n hrest).bind hd fun body' d hsame' hd => ?_
  refine ⟨?_, hd⟩
  show Stmt.unnumbered _ = Stmt.unnumbered _
  rw [Stmt.unnumbered, Stmt.unnumbered, hsame, hsame']

theorem acceptedStatement_forLoop {word opening semicolon closing : Token} {ts us vs ws : List Token}
    {initializer : Option Stmt} {condition increment : Option Expr} {body : Stmt}
    (hword : word.IsWord .for) (ho : opening.IsMark .leftParen)
    (hinitializer : Grammar.Initializer ts initializer) (hcondition : Grammar.Optional us condition)
    (hsemicolon : semicolon.IsMark .semicolon) (hincrement : Grammar.Optional vs increment)
    (hc : closing.IsMark .rightParen) (hbody : AcceptedStatement ws body) :
    AcceptedStatement (word :: opening :: ts ++ us ++ semicolon :: vs ++ closing :: ws)
      (.forLoop initializer condition increment body) := by
  intro n rest hrest c hface
  simp only [List.append_assoc, List.cons_append] at hface
  rw [statementRule]
  refine hface.word hword rfl fun d hd => ?_
  rw [forStatement]
  refine hd.mark ho fun d hd => ?_
  refine (accepts_forInitializer hinitializer n _).bind hd fun initializer' d hsame₁ hd => ?_
  refine (accepts_optional hcondition n hsemicolon rfl rfl).bind hd fun condition' d hsame₂ hd => ?_
  refine hd.mark hsemicolon fun d hd => ?_
  refine (accepts_optional hincrement n hc rfl rfl).bind hd fun increment' d hsame₃ hd => ?_
  refine hd.mark hc fun d hd => ?_
  refine (hbody.accepts n hrest).bind hd fun body' d hsame₄ hd => ?_
  refine ⟨?_, hd⟩
  show Stmt.unnumbered _ = Stmt.unnumbered _
  rw [Stmt.unnumbered, Stmt.unnumbered, hsame₁, hsame₂, hsame₃, hsame₄]

/-! ## Declarations -/

theorem Grammar.Statement.head_ne {ts : List Token} {s : Stmt} (h : Grammar.Statement ts s) :
    ∃ t us, ts = t :: us ∧ ∀ k : Keyword, k = .class ∨ k = .fun ∨ k = .var →
      t.terminal ≠ .keyword k := by
  have of_word {t : Token} {us : List Token} {k : Keyword} (ht : t.IsWord k)
      (hk : k ≠ .class ∧ k ≠ .fun ∧ k ≠ .var) :
      ∃ t' us', t :: us = t' :: us' ∧ ∀ k : Keyword, k = .class ∨ k = .fun ∨ k = .var →
        t'.terminal ≠ .keyword k := by
    refine ⟨t, us, rfl, fun k' hk' he => ?_⟩
    rw [ht.terminal, Terminal.keyword.injEq] at he
    subst he
    rcases hk' with rfl | rfl | rfl
    · exact hk.1 rfl
    · exact hk.2.1 rfl
    · exact hk.2.2 rfl
  cases h with
  | expression hs =>
    obtain ⟨t, us, rfl, ht⟩ := hs.begins
    refine ⟨t, us, rfl, fun k hk he => ?_⟩
    rw [he] at ht
    rcases hk with rfl | rfl | rfl <;> cases ht
  | block ho _ _ =>
    refine ⟨_, _, rfl, fun k _ he => ?_⟩
    rw [ho.terminal] at he
    cases he
  | print hword | ifThen hword | ifElse hword | whileLoop hword | forLoop hword | «return» hword
  | «break» hword | «continue» hword => exact of_word hword (by decide)

theorem acceptedDeclaration_statement {ts : List Token} {s : Stmt} (hs : Grammar.Statement ts s)
    (h : AcceptedStatement ts s) : AcceptedDeclaration ts s := by
  intro n rest hrest c hc
  obtain ⟨t, us, rfl, ht⟩ := hs.head_ne
  rw [declarationRule]
  refine hc.peek ?_
  split <;> rename_i hk
  · exact absurd hk (ht _ (.inl rfl))
  · exact absurd hk (ht _ (.inr (.inl rfl)))
  · exact absurd hk (ht _ (.inr (.inr rfl)))
  · exact h n rest (fun _ => hrest) c hc

theorem acceptedDeclaration_variable {ts : List Token} {s : Stmt} (h : Grammar.Variable ts s) :
    AcceptedDeclaration ts s := by
  intro n rest _ c hc
  obtain ⟨word, us, rfl, hword, haccepts⟩ := accepts_varDeclaration h
  rw [declarationRule]
  refine hc.word hword rfl fun d hd => ?_
  exact haccepts n rest d hd

theorem accepts_parametersFrom {ts names : List Token} (h : Grammar.Names ts names) (fuel : Nat)
    (read : Array Token) {closing : Token} (hclosing : closing.IsMark .rightParen)
    (rest : List Token) (hcount : read.size + names.length ≤ maxListed) :
    Accepts (parametersFrom read fuel) ts (closing :: rest) (· = read.toList ++ names) := by
  induction h generalizing fuel read with
  | one hname =>
    intro c hc
    cases fuel with
    | zero => exact rfl
    | succ fuel =>
      rw [parametersFrom, if_neg (by simp at hcount; omega)]
      refine hc.name hname fun d hd => ?_
      have hne : closing.terminal ≠ .punct .comma := by
        simp [hclosing.terminal]
      exact hd.refused hne ⟨by simp, hd⟩
  | more hname hcomma _ ih =>
    intro c hc
    rw [List.length_cons] at hcount
    cases fuel with
    | zero => exact rfl
    | succ fuel =>
      rw [parametersFrom, if_neg (by omega)]
      refine hc.name hname fun d hd => ?_
      refine hd.accepted hcomma.terminal (by simp) fun d hd => ?_
      refine (ih fuel _ ?_ d hd).mono ?_ (fun _ _ hh => hh)
      · rw [Array.size_push]
        omega
      · rintro _ e - ⟨rfl, he⟩
        exact ⟨by simp, he⟩

/-- The rule reads the tokens as a function. -/
def AcceptedCallable (first : Token) (ts : List Token) (f : Function) : Prop :=
  ∀ (n fuel : Nat) (form : FunctionForm) (rest : List Token),
    Accepts (function (declaration n) form first fuel) ts rest (f.unnumbered = Function.unnumbered ·)

theorem acceptedCallable {first name opening closing brace final : Token} {ts us params : List Token}
    {body : List Stmt} (hname : name.IsName) (ho : opening.IsMark .leftParen)
    (hparams : Grammar.Parameters ts params) (hcount : params.length ≤ maxListed)
    (hclosing : closing.IsMark .rightParen) (hbrace : brace.IsMark .leftBrace)
    (hbody : AcceptedDeclarations us body) (hfinal : final.IsMark .rightBrace) :
    AcceptedCallable first (name :: opening :: ts ++ closing :: brace :: us ++ [final])
      ⟨name, params, body, ⟨first.position.line, first.position.start, final.position.stop⟩⟩ := by
  intro n fuel form rest c hc
  simp only [List.append_assoc, List.cons_append, List.nil_append] at hc
  rw [function]
  refine hc.name hname fun d hd => ?_
  refine hd.mark ho fun d hd => ?_
  have done {d : Cursor} (hd : d.Faces (closing :: brace :: (us ++ final :: rest))) :
      Ensures (do
          let _ ← expectMark .rightParen .afterParameters
          let _ ← expectMark .leftBrace (.beforeFunctionBody form)
          let read ← block (declaration n) fuel
          return (⟨name, params, read.1, spanFrom first read.2⟩ : Function)) d
        (fun f d => Function.unnumbered ⟨name, params, body, spanFrom first final⟩ = f.unnumbered ∧
          d.Faces rest) OutOfFuel := by
    refine hd.mark hclosing fun d hd => ?_
    refine hd.mark hbrace fun d hd => ?_
    refine (hbody.accepts_block n fuel hfinal rest).bind (by simpa using hd) ?_
    rintro ⟨body', _⟩ d ⟨hsame, rfl⟩ hd
    refine ⟨?_, hd⟩
    rw [Function.unnumbered, Function.unnumbered, hsame]
  cases hparams with
  | none =>
    refine hd.peek ?_
    rw [if_pos (by rw [hclosing.terminal]; rfl)]
    exact done hd
  | some hnames =>
    obtain ⟨t, vs, rfl, ht⟩ : ∃ t vs, ts = t :: vs ∧ t.IsName := by
      cases hnames with
      | one h => exact ⟨_, _, rfl, h⟩
      | more h _ _ => exact ⟨_, _, rfl, h⟩
    refine hd.peek ?_
    rw [if_neg (by simp [ht.terminal])]
    have hread := accepts_parametersFrom hnames fuel #[] hclosing (brace :: (us ++ final :: rest))
      (by simpa using hcount)
    refine hread.bind hd ?_
    rintro _ d rfl hd
    exact done hd

theorem acceptedDeclaration_function {word : Token} {ts : List Token} {f : Function}
    (hword : word.IsWord .fun) (hf : AcceptedCallable word ts f) :
    AcceptedDeclaration (word :: ts) (.function f) := by
  intro n rest _ c hc
  rw [declarationRule]
  refine hc.word hword rfl fun d hd => ?_
  refine (hf n n .function rest).bind hd fun f' d hsame hd => ?_
  exact ⟨congrArg Stmt.function hsame, hd⟩

/-- The rule reads the tokens as methods, up to the brace that closes the class. -/
def AcceptedMethods (ts : List Token) (fs : List Function) : Prop :=
  ∀ (n fuel : Nat) (read : Array Function) (closing : Token) (rest : List Token),
    closing.IsMark .rightBrace →
    Accepts (methodsFrom (declaration n) read fuel) ts (closing :: rest)
      (fun r => ∃ fs', r = read.toList ++ fs' ∧
        Function.unnumberedAll fs = Function.unnumberedAll fs')

theorem acceptedMethods_nil : AcceptedMethods [] [] := by
  intro n fuel read closing rest hclosing c hc
  cases fuel with
  | zero => exact rfl
  | succ fuel =>
    rw [methodsFrom, ensures_bind, ensures_goesOnUnless, hc.current,
      hclosing.terminal]
    exact ⟨⟨[], by simp, rfl⟩, hc⟩

theorem acceptedMethods_cons {name : Token} {ts us : List Token} {f : Function}
    {fs : List Function} (hname : name.IsName) (hf : AcceptedCallable name (name :: ts) f)
    (hfs : AcceptedMethods us fs) : AcceptedMethods (name :: ts ++ us) (f :: fs) := by
  intro n fuel read closing rest hclosing c hc
  cases fuel with
  | zero => exact rfl
  | succ fuel =>
    rw [List.append_assoc, List.cons_append] at hc
    rw [methodsFrom, ensures_bind, ensures_goesOnUnless, hc.current,
      hname.terminal, if_pos (by decide), ensures_bind, ensures_get, hc.current]
    refine (hf n fuel .method (us ++ closing :: rest)).bind hc fun f' d hsame hd => ?_
    refine (hfs n fuel _ closing rest hclosing d hd).mono ?_ (fun _ _ hh => hh)
    rintro _ e - ⟨⟨fs', rfl, hfs'⟩, he⟩
    refine ⟨⟨f' :: fs', by simp, ?_⟩, he⟩
    rw [Function.unnumberedAll, Function.unnumberedAll, hsame, hfs']

theorem acceptedDeclaration_class {word name opening closing : Token} {ts us : List Token}
    {superclass : Option Occurrence} {methods : List Function} (hword : word.IsWord .class)
    (hname : name.IsName) (hsuperclass : Grammar.Superclass ts superclass)
    (ho : opening.IsMark .leftBrace) (hmethods : AcceptedMethods us methods)
    (hclosing : closing.IsMark .rightBrace) :
    AcceptedDeclaration (word :: name :: ts ++ opening :: us ++ [closing])
      (.class ⟨name, superclass, methods,
        ⟨word.position.line, word.position.start, closing.position.stop⟩⟩) := by
  intro n rest _ c hc
  simp only [List.append_assoc, List.cons_append, List.nil_append] at hc
  rw [declarationRule]
  refine hc.word hword rfl fun d hd => ?_
  rw [classDeclaration]
  refine hd.name hname fun d hd => ?_
  have hread : Accepts superclass? ts (opening :: (us ++ closing :: rest))
      (fun o => superclass.map Occurrence.unnumbered = o.map Occurrence.unnumbered) := by
    intro c hc
    rw [superclass?]
    cases hsuperclass with
    | none =>
      refine hc.refused ?_ ⟨rfl, hc⟩
      simp [ho.terminal]
    | some hless hname =>
      refine hc.accepted hless.terminal (by simp) fun d hd => ?_
      refine hd.name hname fun d hd => ?_
      refine hd.freshId fun id d hd => ?_
      exact ⟨rfl, hd⟩
  refine hread.bind hd fun superclass' d hsame hd => ?_
  refine hd.mark ho fun d hd => ?_
  refine (hmethods n n #[] closing rest hclosing).bind hd ?_
  rintro _ d ⟨methods', rfl, hmethods'⟩ hd
  refine hd.mark hclosing fun d hd => ?_
  refine ⟨?_, hd⟩
  show Stmt.unnumbered _ = Stmt.unnumbered _
  rw [Stmt.unnumbered, Stmt.unnumbered, Class.unnumbered, Class.unnumbered, hsame, hmethods']
  rfl

/-! ## Rows of declarations -/

theorem acceptedDeclarations_nil : AcceptedDeclarations [] [] := by
  intro n fuel read t rest ht _ c hc
  cases fuel with
  | zero => exact rfl
  | succ fuel =>
    rw [declarationsFrom, ensures_bind, ensures_goesOnUnless, hc.current, bne_self_eq_false]
    exact ⟨⟨[], by simp, rfl⟩, hc⟩

theorem acceptedDeclarations_cons {ts us : List Token} {s : Stmt} {ss : List Stmt}
    (hs : AcceptedDeclaration ts s) (hbegins : StartsRow ts) (hrest : us = [] ∨ StartsRow us)
    (hss : AcceptedDeclarations us ss) : AcceptedDeclarations (ts ++ us) (s :: ss) := by
  intro n fuel read t rest ht helse c hc
  cases fuel with
  | zero => exact rfl
  | succ fuel =>
    rw [List.append_assoc] at hc
    have hnoElse : NoElse (us ++ t :: rest) := by
      obtain rfl | ⟨u, vs, rfl, hu⟩ := hrest
      · exact noElse_cons.mpr helse
      · refine noElse_cons.mpr fun he => ?_
        rw [he] at hu
        cases hu
    have hgo : c.current.terminal != t.terminal && c.current.terminal != .endOfInput := by
      obtain ⟨v, vs, rfl, hv⟩ := hbegins
      have hne : v.terminal ≠ t.terminal := by
        intro he
        rw [he, ht] at hv
        cases hv
      have hend : v.terminal ≠ .endOfInput := by
        intro he
        rw [he] at hv
        cases hv
      rw [hc.current]
      simp [hne, hend]
    rw [declarationsFrom, ensures_bind, ensures_goesOnUnless, if_pos hgo]
    refine (hs.accepts n hnoElse).bind hc ?_
    rintro _ d ⟨s', rfl, hsame⟩ hd
    refine (hss n fuel _ t rest ht helse d hd).mono ?_ (fun _ _ hh => hh)
    rintro _ e - ⟨⟨ss', rfl, hss'⟩, he⟩
    refine ⟨⟨s' :: ss', by simp, ?_⟩, he⟩
    rw [Stmt.unnumberedAll, Stmt.unnumberedAll, hsame, hss']

theorem Grammar.Declarations.begins {ts : List Token} {ss : List Stmt}
    (h : Grammar.Declarations ts ss) : ts = [] ∨ StartsRow ts := by
  cases h with
  | nil => exact .inl rfl
  | cons hs hss =>
    obtain ⟨t, us, rfl, ht⟩ := hs.begins
    exact .inr ⟨t, _, rfl, ht⟩

theorem Grammar.Callable.isName {first t : Token} {ts us : List Token} {f : Function}
    (h : Grammar.Callable first us f) (hus : us = t :: ts) : t.IsName := by
  cases h with
  | mk hname =>
    rw [List.cons_append, List.cons_append, List.cons.injEq] at hus
    exact hus.1 ▸ hname

mutual

theorem Grammar.Statement.accepted {ts : List Token} {s : Stmt} (h : Grammar.Statement ts s) :
    AcceptedStatement ts s := by
  match h with
  | .expression hs => exact acceptedStatement_expression hs
  | .print hword he hsemicolon => exact acceptedStatement_print hword he hsemicolon
  | .block ho hbody hc => exact acceptedStatement_block ho hbody.accepted hc
  | .ifThen hword ho he hc hthen =>
    exact acceptedStatement_ifThen hword ho he hc hthen.accepted
  | .ifElse hword ho he hc hthen hclosed hother helse =>
    exact acceptedStatement_ifElse hword ho he hc hthen.accepted hclosed hother helse.accepted
  | .whileLoop hword ho he hc hbody =>
    exact acceptedStatement_whileLoop hword ho he hc hbody.accepted
  | .forLoop hword ho hinitializer hcondition hsemicolon hincrement hc hbody =>
    exact acceptedStatement_forLoop hword ho hinitializer hcondition hsemicolon hincrement hc
      hbody.accepted
  | .return hword hvalue hsemicolon => exact acceptedStatement_return hword hvalue hsemicolon
  | .break hword hsemicolon => exact acceptedStatement_break hword hsemicolon
  | .continue hword hsemicolon => exact acceptedStatement_continue hword hsemicolon
termination_by structural h

theorem Grammar.Declaration.accepted {ts : List Token} {s : Stmt} (h : Grammar.Declaration ts s) :
    AcceptedDeclaration ts s := by
  match h with
  | .class hword hname hsuperclass ho hmethods hc =>
    exact acceptedDeclaration_class hword hname hsuperclass ho hmethods.accepted hc
  | .function hword hf => exact acceptedDeclaration_function hword hf.accepted
  | .variable hs => exact acceptedDeclaration_variable hs
  | .statement hs => exact acceptedDeclaration_statement hs hs.accepted
termination_by structural h

theorem Grammar.Callable.accepted {first : Token} {ts : List Token} {f : Function}
    (h : Grammar.Callable first ts f) : AcceptedCallable first ts f := by
  match h with
  | .mk hname ho hparams hcount hc hbrace hbody hfinal =>
    exact acceptedCallable hname ho hparams hcount hc hbrace hbody.accepted hfinal
termination_by structural h

theorem Grammar.Methods.accepted {ts : List Token} {fs : List Function}
    (h : Grammar.Methods ts fs) : AcceptedMethods ts fs := by
  match h with
  | .nil => exact acceptedMethods_nil
  | .cons hf hfs => exact acceptedMethods_cons (hf.isName rfl) hf.accepted hfs.accepted
termination_by structural h

/-- **Every program of the grammar is read as the tree it stands for.** -/
theorem Grammar.Declarations.accepted {ts : List Token} {ss : List Stmt}
    (h : Grammar.Declarations ts ss) : AcceptedDeclarations ts ss := by
  match h with
  | .nil => exact acceptedDeclarations_nil
  | .cons hs hss =>
    exact acceptedDeclarations_cons hs.accepted hs.begins hss.begins hss.accepted
termination_by structural h

end

/-! ## Whole texts -/

theorem Ended.exists_concat {ts : List Token} (h : Ended ts) :
    ∃ t, ts = ts.dropLast ++ [t] ∧ t.terminal = .endOfInput := by
  induction h with
  | last ht => exact ⟨_, rfl, ht⟩
  | @cons u us _ hus ih =>
    obtain ⟨t, hts, ht⟩ := ih
    refine ⟨t, ?_, ht⟩
    rw [List.dropLast_cons_of_ne_nil hus.ne_nil, List.cons_append, ← hts]

theorem faces_start {source : String} (firstId : ExprId)
    (hlexed : (scan source).all Except.isOk = true) :
    (Cursor.start (scan source) firstId).Faces (tokens source) := by
  have hitems : ∀ item ∈ scan source, ∃ t, item = .ok t := by
    intro item hitem
    have hok := List.all_eq_true.mp hlexed item hitem
    cases item with
    | ok t => exact ⟨t, rfl⟩
    | error p => cases hok
  obtain ⟨t, rest, hscan⟩ : ∃ t rest, scan source = .ok t :: rest := by
    cases hs : scan source with
    | nil =>
      refine absurd ?_ (ended_tokens source).ne_nil
      rw [tokens, hs]
      rfl
    | cons item rest =>
      obtain ⟨t, rfl⟩ := hitems item (hs ▸ List.mem_cons_self)
      exact ⟨t, rest, rfl⟩
  refine ⟨sound_start source firstId, tokens_start source firstId, ?_, ?_⟩
  · rw [hscan] at hitems ⊢
    exact fun item hitem => hitems item (List.mem_cons_of_mem _ hitem)
  · rw [hscan]
    rfl

theorem parse_of_accepted {source : String} (firstId : ExprId) {program : List Stmt}
    (hlexed : (scan source).all Except.isOk = true)
    (hprogram : AcceptedDeclarations (tokens source).dropLast program) :
    (parse source firstId).clean = true ∧
      Stmt.unnumberedAll (parse source firstId).tree = Stmt.unnumberedAll program := by
  obtain ⟨t, htokens, ht⟩ := (ended_tokens source).exists_concat
  have hface := faces_start firstId hlexed
  rw [htokens] at hface
  have haccepts := hprogram (Parser.enoughFuel (scan source))
    (Parser.enoughFuel (scan source)) #[] t [] (by rw [ht]; rfl) (by simp [ht]) _ hface
  rw [ht] at haccepts
  have hreads := ensures_parse source firstId
  unfold parse Parser.run
  cases hx : Parser.declarations (Parser.enoughFuel (scan source))
      (Cursor.start (scan source) firstId) with
  | ok tree d =>
    obtain ⟨⟨ss, rfl, hss⟩, hd⟩ := haccepts.ok_of_eq hx
    refine ⟨?_, hss.symm⟩
    show d.complaints.reverse.isEmpty = true
    rw [hd.silent]
    rfl
  | error e d =>
    -- the rules of the grammar never run out of fuel
    obtain ⟨hproblem, -⟩ := hreads.halt_of_eq hx
    have hfuel : e = .outOfFuel := haccepts.halt_of_eq hx
    rw [hfuel] at hproblem
    cases hproblem

/-- **The parser accepts every program of the grammar and returns its tree.** The tree is the one
that the grammar prescribes, up to the numbers that are given to its occurrences. -/
theorem parse_of_declarations (source : String) (firstId : ExprId) (program : List Stmt)
    (hlexed : (scan source).all Except.isOk = true)
    (hprogram : Grammar.Declarations (tokens source).dropLast program) :
    (parse source firstId).clean = true ∧
      Stmt.unnumberedAll (parse source firstId).tree = Stmt.unnumberedAll program :=
  parse_of_accepted firstId hlexed hprogram.accepted

/-- A program whose `else` belongs to the inner `if`, read with two first numbers. -/
theorem parse_of_declarations_nested :
    (scan "if (a) if (b) c = d = -e.f or g; else return h(i)(j, k);").all Except.isOk = true ∧
      Stmt.unnumberedAll
          (parse "if (a) if (b) c = d = -e.f or g; else return h(i)(j, k);" 7).tree =
        Stmt.unnumberedAll
          (parse "if (a) if (b) c = d = -e.f or g; else return h(i)(j, k);" 0).tree :=
  ⟨by decide +kernel,
    (parse_of_declarations "if (a) if (b) c = d = -e.f or g; else return h(i)(j, k);" 7
      (parse "if (a) if (b) c = d = -e.f or g; else return h(i)(j, k);" 0).tree (by decide +kernel)
      (declarations_of_clean _ 0 (by decide +kernel))).2⟩

end Lox
