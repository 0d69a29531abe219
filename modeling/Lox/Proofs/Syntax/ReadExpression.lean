import Lox.Proofs.Syntax.Reading
import Lox.Syntax.Expression

/-!
# What the rules of expressions read

Every rule reads a tree that the grammar has for the tokens it passes, or gives up with a problem.
Between them the bounds on the repetitions are never reached.

* `Grammar.Level.operators`: the table of operators that a rule uses for a level;
* `parses_chain`, `parses_unary`, `parses_call`, …: one lemma for each rule, under the assumption
  that the rule for nested expressions reads what is shorter;
* **`parses_expression`**: what a whole expression reads.
-/

namespace Lox

open Lox.Parser

/-- The operators of a level, as the rules look them up. -/
def Grammar.Level.operators : Grammar.Level → Parser.Level
  | disjunction => orLevel
  | conjunction => andLevel
  | equality => equalityLevel
  | comparison => comparisonLevel
  | sum => termLevel
  | product => factorLevel

/-- What the table of a level holds: the binary and logical operators of that level. -/
theorem Grammar.Level.of_operators {level : Grammar.Level} {terminal : Terminal} {node : Infix}
    (h : level.operators terminal = some node) :
    (∃ op : BinaryOp, op.level = level ∧ terminal = .punct op.punct ∧ node = binaryNode op) ∨
      ∃ op : LogicalOp, op.level = level ∧ terminal = .keyword op.keyword ∧ node = logicalNode op := by
  cases level <;> unfold Grammar.Level.operators at h <;> dsimp only at h
  case disjunction =>
    unfold orLevel at h
    split at h <;> cases h
    exact .inr ⟨.or, rfl, rfl, rfl⟩
  case conjunction =>
    unfold andLevel at h
    split at h <;> cases h
    exact .inr ⟨.and, rfl, rfl, rfl⟩
  case equality =>
    unfold equalityLevel at h
    split at h <;> cases h
    · exact .inl ⟨.notEqual, rfl, rfl, rfl⟩
    · exact .inl ⟨.equal, rfl, rfl, rfl⟩
  case comparison =>
    unfold comparisonLevel at h
    split at h <;> cases h
    · exact .inl ⟨.greater, rfl, rfl, rfl⟩
    · exact .inl ⟨.greaterEqual, rfl, rfl, rfl⟩
    · exact .inl ⟨.less, rfl, rfl, rfl⟩
    · exact .inl ⟨.lessEqual, rfl, rfl, rfl⟩
  case sum =>
    unfold termLevel at h
    split at h <;> cases h
    · exact .inl ⟨.subtract, rfl, rfl, rfl⟩
    · exact .inl ⟨.add, rfl, rfl, rfl⟩
  case product =>
    unfold factorLevel at h
    split at h <;> cases h
    · exact .inl ⟨.multiply, rfl, rfl, rfl⟩
    · exact .inl ⟨.divide, rfl, rfl, rfl⟩

/-- The node of an operator is a tree of its level, and holds the occurrences of its operands. -/
theorem Grammar.Level.node_spec {level : Grammar.Level} {t : Token} {node : Infix}
    (h : level.operators t.terminal = some node) (e f : Expr) :
    (node e t f).ids = e.ids ++ f.ids ∧ (e.Regular → f.Regular → (node e t f).Regular) ∧
      ∀ ts us, Grammar.Expression (.operation level) ts e → Grammar.Expression level.operand us f →
        Grammar.Expression (.operation level) (ts ++ t :: us) (node e t f) := by
  obtain ⟨op, hop, ht, rfl⟩ | ⟨op, hop, ht, rfl⟩ := of_operators h
  · refine ⟨by rw [binaryNode, Expr.ids], .binary, fun ts us he hf => ?_⟩
    exact .binary hop he (Token.terminal_eq_punct.mp ht) hf
  · refine ⟨by rw [logicalNode, Expr.ids], .logical, fun ts us he hf => ?_⟩
    exact .logical hop he (Token.terminal_eq_keyword.mp ht) hf

/-! ## Left-associative operators -/

theorem ensures_chainFrom {level : Grammar.Level} {operand : Parser Expr} {fuel : Nat}
    (ho : Parses (.expression level.operand) operand fuel) {c₀ c : Cursor} (hc₀ : c₀.Sound)
    {left : Expr} (hleft : Takes (.expression (.operation level)) c₀ left c)
    (hfuel : c.tokens.length ≤ fuel) :
    Ensures (chainFrom level.operators operand left fuel) c
      (Takes (.expression (.operation level)) c₀) (Halted c₀) := by
  induction fuel generalizing c left with
  | zero => simp [Cursor.tokens] at hfuel
  | succ fuel ih =>
    have hc := hleft.stretch.sound hc₀
    rw [chainFrom, ensures_bind, ensures_peek]
    cases hop : level.operators c.current.terminal with
    | none => exact hleft
    | some node =>
      have hend : c.current.terminal ≠ .endOfInput := by
        intro he
        obtain ⟨op, -, ht, -⟩ | ⟨op, -, ht, -⟩ := Grammar.Level.of_operators hop <;>
          simp [he] at ht
      refine hleft.stretch.bind (ensures_advance_of hc hend) fun t d ht => ?_
      obtain ⟨rfl, hpass, -⟩ := ht
      have hd := hleft.stretch.trans (.ofPasses hpass)
      have hlt := hpass.length_lt
      refine hd.bind (ho d (hd.sound hc₀) (by omega)) fun right e hright => ?_
      obtain ⟨hids, hreg, hgram⟩ := Grammar.Level.node_spec hop left right
      have hshorter := hright.shorter
      have hbefore := hleft.shorter
      refine ih (ho.mono (Nat.le_succ _)) ⟨⟨?_, ?_⟩, by omega⟩ (by omega)
      · refine (hd.trans hright.stretch).imp ?_ ?_
        · show List.Perm (left.ids ++ [] ++ right.ids) (Expr.ids _)
          rw [hids, List.append_nil]
        · rintro _ ⟨_, us, rfl, ⟨ts, _, rfl, hl, rfl⟩, hr⟩
          rw [List.append_assoc]
          exact hgram ts us hl hr
      · exact hreg hleft.regular hright.regular

theorem parses_chain (level : Grammar.Level) {operand : Parser Expr} {fuel : Nat}
    (ho : Parses (.expression level.operand) operand (fuel + 1)) :
    Parses (.expression (.operation level)) (chain level.operators operand fuel) (fuel + 1) := by
  intro c hc hl
  rw [chain]
  refine (ho c hc hl).bind (fun left d _ hleft => ?_) (fun _ _ h => h)
  have hshorter := hleft.shorter
  have hleft : Takes (.expression (.operation level)) c left d :=
    ⟨⟨hleft.stretch.imp (.refl _) fun ts h => .operand h, hleft.regular⟩, hshorter⟩
  exact ensures_chainFrom (ho.mono (Nat.le_succ _)) hc hleft (by omega)

/-! ## Below the ladder -/

/-- Where the elements of a list are counted, a list that is too long is a problem. -/
theorem ensures_limited {α β : Type} {c : Cursor} (list : Listed) (count : Nat) {rest : Parser α}
    {ok : α → β → Prop} {ids : β → List ExprId} {written : β → List Token → Prop}
    (hrest : ∀ d : Cursor, c.Leads d → Ensures rest d
      (fun a e => ∃ x, ok a x ∧ Stretch d (ids x) (written x) e) (Halted d)) :
    Ensures (if count ≥ maxListed then do
        complain (.tooMany list) (← get).current
        rest
      else rest) c
      (fun a e => ∃ x, ok a x ∧ Stretch c (ids x) (fun ts => written x ts ∧ count < maxListed) e)
      (Halted c) := by
  by_cases h : count ≥ maxListed
  · rw [if_pos h, ensures_bind, ensures_get, ensures_bind, ensures_complain]
    obtain ⟨hleads, hheard⟩ := leads_note (c := c) (.tooMany list) c.current.position
    refine (hrest _ hleads).mono ?_ (fun _ _ hh => hh.trans hleads)
    rintro a e - ⟨x, hx, hstretch⟩
    exact ⟨x, hx, .behind_problem hleads hheard hstretch⟩
  · rw [if_neg h]
    refine (hrest c (.refl c)).mono ?_ (fun _ _ hh => hh)
    rintro a e - ⟨x, hx, hstretch⟩
    exact ⟨x, hx, hstretch.imp (.refl _) fun ts hts => ⟨hts, Nat.lt_of_not_le h⟩⟩

theorem ensures_argumentsFrom {nested : Parser Expr} {bound : Nat}
    (hn : Parses (.expression .expression) nested bound) {c : Cursor} (hc : c.Sound)
    (hl : c.tokens.length < bound) (read : Array Expr) {fuel : Nat}
    (hfuel : c.tokens.length ≤ fuel) :
    Ensures (argumentsFrom nested read fuel) c
      (fun es d => ∃ fs, (es = read.toList ++ fs ∧ ∀ f ∈ fs, Expr.Regular f) ∧
        Stretch c (Expr.idsAll fs)
          (fun ts => (Grammar.Listed ts fs ∧ (read.size < maxListed → read.size + fs.length ≤ maxListed))
            ∧ read.size < maxListed) d)
      (Halted c) := by
  induction fuel generalizing c read with
  | zero => simp [Cursor.tokens] at hfuel
  | succ fuel ih =>
    rw [argumentsFrom]
    refine ensures_limited _ _ fun c' hleads => ?_
    have hc' := hleads.sound hc
    have hlength := hleads.length_le
    refine (hn c' hc' (by omega)).bind (fun e d _ he => ?_) (fun _ _ h => h)
    have hshorter := he.shorter
    refine he.stretch.bind (ensures_accept? (he.stretch.sound hc') (by simp)) fun o d' ho => ?_
    cases o with
    | none =>
      obtain ⟨rfl, -⟩ := ho
      refine ⟨[e], ⟨by simp, List.forall_mem_singleton.mpr he.regular⟩, he.stretch.imp ?_ fun ts hts => ?_⟩
      · show List.Perm e.ids (e.ids ++ [])
        rw [List.append_nil]
      · exact ⟨.one hts, fun h => h⟩
    | some comma =>
      obtain ⟨hpass, hcomma, -⟩ := ho
      have hd := he.stretch.trans (.ofPasses hpass)
      have hlt := hpass.length_lt
      refine (ih (hd.sound hc') (by omega) (read.push e) (by omega)).mono ?_ (fun _ _ h => hd.halted h)
      rintro es d'' - ⟨fs, ⟨rfl, hfs⟩, hstretch⟩
      refine ⟨e :: fs, ⟨by simp, List.forall_mem_cons.mpr ⟨he.regular, hfs⟩⟩,
        (hd.trans hstretch).imp ?_ ?_⟩
      · show List.Perm (e.ids ++ [] ++ Expr.idsAll fs) (e.ids ++ Expr.idsAll fs)
        rw [List.append_nil]
      · rintro _ ⟨_, us, rfl, ⟨ts, _, rfl, hts, rfl⟩, ⟨hus, hcount⟩, hsize⟩
        rw [List.append_assoc]
        refine ⟨.more hts (Token.terminal_eq_punct.mp hcomma) hus, fun _ => ?_⟩
        have := hcount hsize
        rw [Array.size_push] at this
        rw [List.length_cons]
        omega

theorem ensures_arguments {nested : Parser Expr} {bound fuel : Nat}
    (hn : Parses (.expression .expression) nested bound) {c : Cursor} (hc : c.Sound)
    (hl : c.tokens.length < bound) (hfuel : c.tokens.length ≤ fuel) :
    Ensures (arguments nested fuel) c
      (fun r e => ∃ d, Reads .arguments c r.1 d ∧ d.Passes r.2 e ∧ r.2.IsMark .rightParen)
      (Halted c) := by
  rw [arguments, ensures_bind, ensures_peek]
  have close {es : List Expr} {d : Cursor} (hes : Reads .arguments c es d) :
      Ensures (do
          let paren ← expectMark .rightParen .afterArguments
          return (es, paren)) d
        (fun r e => ∃ d, Reads .arguments c r.1 d ∧ d.Passes r.2 e ∧ r.2.IsMark .rightParen)
        (Halted c) := by
    refine hes.stretch.bind (ensures_expectMark (hes.stretch.sound hc) _ _) fun paren e hp => ?_
    exact ⟨d, hes, hp⟩
  by_cases h : c.current.terminal = .punct .rightParen
  · rw [if_pos (by simpa using h)]
    refine close ⟨(Stretch.refl c).imp (.refl _) ?_, by simp [Part.arguments]⟩
    rintro _ rfl
    exact ⟨.none, Nat.zero_le _⟩
  · rw [if_neg (by simpa using h)]
    refine (ensures_argumentsFrom hn hc hl #[] hfuel).bind ?_ (fun _ _ h => h)
    rintro _ d - ⟨fs, ⟨rfl, hfs⟩, hstretch⟩
    refine close ⟨hstretch.imp (.refl _) fun ts hts => ?_, hfs⟩
    obtain ⟨⟨hlisted, hcount⟩, hsize⟩ := hts
    refine ⟨.some hlisted, ?_⟩
    simpa using hcount hsize

theorem takes_single {c d : Cursor} {t : Token} {e : Expr} (hpass : c.Passes t d)
    (hids : e.ids = []) (hreg : e.Regular) (hgram : Grammar.Expression .primary [t] e) :
    Takes (.expression .primary) c e d := by
  refine ⟨⟨(Stretch.ofPasses hpass).imp ?_ ?_, hreg⟩, hpass.length_lt⟩
  · show List.Perm [] e.ids
    rw [hids]
  · rintro _ rfl
    exact hgram

theorem takes_occurrence {c d : Cursor} {t : Token} {e : Expr} (hpass : c.Passes t d)
    (hids : e.ids = [d.nextId]) (hreg : e.Regular) (hgram : Grammar.Expression .primary [t] e) :
    Takes (.expression .primary) c e { d with nextId := d.nextId + 1 } := by
  refine ⟨⟨((Stretch.ofPasses hpass).trans (.freshId d)).imp ?_ ?_, hreg⟩, hpass.length_lt⟩
  · show List.Perm [d.nextId] e.ids
    rw [hids]
  · rintro _ ⟨_, _, rfl, rfl, rfl⟩
    exact hgram

theorem parses_primary {nested : Parser Expr} {bound : Nat}
    (hn : Parses (.expression .expression) nested bound) :
    Parses (.expression .primary) (primary nested) (bound + 1) := by
  intro c hc hl
  rw [primary, ensures_bind, ensures_get]
  have next {kind : TokenKind} (hk : c.current.kind = kind) (hend : kind.terminal ≠ .endOfInput)
      {rest : Token → Parser Expr}
      (hrest : ∀ d, c.Passes c.current d → c.current.Spelled →
        Ensures (rest c.current) d (Takes (.expression .primary) c) (Halted c)) :
      Ensures (advance >>= rest) c (Takes (.expression .primary) c) (Halted c) := by
    have hend : c.current.terminal ≠ .endOfInput := by rwa [Token.terminal, hk]
    refine (Stretch.refl c).bind (ensures_advance_of hc hend) fun t d ht => ?_
    obtain ⟨rfl, hpass, hspelled⟩ := ht
    exact hrest d hpass hspelled
  split <;> rename_i hk
  · exact next hk nofun fun d hpass _ =>
      takes_single hpass (by rw [Expr.ids]) .literal (.literal hk)
  · exact next hk nofun fun d hpass _ =>
      takes_single hpass (by rw [Expr.ids]) .literal (.literal hk)
  · exact next hk nofun fun d hpass _ =>
      takes_single hpass (by rw [Expr.ids]) .literal (.literal hk)
  · exact next hk nofun fun d hpass _ =>
      takes_single hpass (by rw [Expr.ids]) .literal (.literal hk)
  · exact next hk nofun fun d hpass _ =>
      takes_single hpass (by rw [Expr.ids]) .literal (.literal hk)
  · exact next hk nofun fun d hpass hspelled =>
      takes_occurrence hpass (by rw [Expr.ids]) (.variable ⟨hk, hspelled⟩) (.variable hk)
  · exact next hk nofun fun d hpass hspelled =>
      takes_occurrence hpass (by rw [Expr.ids]) (.this ⟨hk, hspelled⟩) (.this hk)
  · refine next hk nofun fun d hpass hspelled => ?_
    have hlt := hpass.length_lt
    refine (Stretch.ofPasses hpass).mark hc fun dot d' hdot hlt' h => ?_
    refine h.name hc fun method d'' hmethod hlt'' h => ?_
    refine ⟨⟨(h.trans (.freshId d'')).imp ?_ ?_, .super ⟨hk, hspelled⟩ hmethod⟩, ?_⟩
    · show List.Perm [d''.nextId] (Expr.ids _)
      rw [Expr.ids]
    · rintro _ ⟨_, _, rfl, ⟨_, _, rfl, ⟨_, _, rfl, rfl, rfl⟩, rfl⟩, rfl⟩
      exact .super hk hdot hmethod.isName
    · show d''.tokens.length < _
      omega
  · refine next hk nofun fun d hpass _ => ?_
    have hlt := hpass.length_lt
    refine (Stretch.ofPasses hpass).tree hc hn (by omega) fun inner d' hinner hlt' h => ?_
    refine h.mark hc fun closing d'' hclosing hlt'' h => ?_
    refine ⟨⟨h.imp ?_ ?_, .grouping hinner⟩, by omega⟩
    · show List.Perm inner.ids (Expr.ids _)
      rw [Expr.ids]
    · rintro _ ⟨_, _, rfl, ⟨_, ts, rfl, rfl, hts⟩, rfl⟩
      exact .grouping hk hts hclosing
  · exact (ensures_fail _).mono (fun _ _ _ h => h.elim) (fun _ _ h => h)

theorem ensures_callFrom {nested : Parser Expr} {bound : Nat}
    (hn : Parses (.expression .expression) nested bound) {c₀ c : Cursor} (hc₀ : c₀.Sound)
    {callee : Expr} (hcallee : Takes (.expression .call) c₀ callee c)
    (hl : c.tokens.length ≤ bound) {fuel : Nat} (hfuel : c.tokens.length ≤ fuel) :
    Ensures (callFrom nested callee fuel) c (Takes (.expression .call) c₀) (Halted c₀) := by
  induction fuel generalizing c callee with
  | zero => simp [Cursor.tokens] at hfuel
  | succ fuel ih =>
    have hc := hcallee.stretch.sound hc₀
    have hbefore := hcallee.shorter
    rw [callFrom, ensures_bind, ensures_peek]
    split <;> rename_i hk
    · refine hcallee.stretch.pass hc₀ (by simp [hk]) fun d _ hlt h => ?_
      refine h.bind (ensures_arguments hn (h.sound hc₀) (by omega) (by omega)) ?_
      rintro ⟨es, closing⟩ d'' ⟨d', hes, hclosing, hmark⟩
      have h := (h.trans hes.stretch).trans (.ofPasses hclosing)
      have hle := (hes.stretch.leads.trans hclosing.leads).length_le
      refine ih ⟨⟨h.imp ?_ ?_, .call hcallee.regular hes.regular⟩, by omega⟩ (by omega) (by omega)
      · show List.Perm (callee.ids ++ Expr.idsAll es ++ []) (Expr.ids _)
        rw [List.append_nil, Expr.ids]
      · rintro _ ⟨_, _, rfl, ⟨_, us, rfl, ⟨ts, _, rfl, hts, rfl⟩, hus, hcount⟩, rfl⟩
        show Grammar.Expression .call _ _
        have := Grammar.Expression.call hts (Token.terminal_eq_punct.mp hk) hus hcount hmark
        simpa only [List.append_assoc, List.cons_append, List.nil_append] using this
    · refine hcallee.stretch.pass hc₀ (by simp [hk]) fun d _ hlt h => ?_
      refine h.name hc₀ fun name d' hname hlt' h => ?_
      refine ih ⟨⟨h.imp ?_ ?_, .get hcallee.regular hname⟩, by omega⟩ (by omega) (by omega)
      · show List.Perm callee.ids (Expr.ids _)
        rw [Expr.ids]
      · rintro _ ⟨_, _, rfl, ⟨ts, _, rfl, hts, rfl⟩, rfl⟩
        rw [List.append_assoc]
        exact .get hts (Token.terminal_eq_punct.mp hk) hname.isName
    · exact hcallee

theorem parses_call {nested : Parser Expr} {fuel : Nat}
    (hn : Parses (.expression .expression) nested (fuel + 1)) :
    Parses (.expression .call) (call nested fuel) (fuel + 2) := by
  intro c hc hl
  rw [call]
  refine (parses_primary hn c hc hl).bind (fun callee d _ h => ?_) (fun _ _ h => h)
  have hshorter := h.shorter
  have hcallee : Takes (.expression .call) c callee d :=
    ⟨⟨h.stretch.imp (.refl _) fun ts hts => .callPrimary hts, h.regular⟩, hshorter⟩
  exact ensures_callFrom hn hc hcallee (by omega) (by omega)

theorem terminal_of_prefixOp? {terminal : Terminal} {op : UnaryOp}
    (h : prefixOp? terminal = some op) : terminal = op.terminal := by
  unfold prefixOp? at h
  split at h <;> cases h <;> rfl

theorem UnaryOp.terminal_ne_endOfInput (op : UnaryOp) : op.terminal ≠ .endOfInput := by
  cases op <;> decide

theorem parses_unary {nested : Parser Expr} {fuel : Nat}
    (hn : Parses (.expression .expression) nested fuel) :
    Parses (.expression .unary) (unary nested fuel) (fuel + 1) := by
  induction fuel with
  | zero =>
    intro c _ hl
    simp [Cursor.tokens] at hl
  | succ fuel ih =>
    intro c hc hl
    rw [unary, ensures_bind, ensures_peek]
    cases hop : prefixOp? c.current.terminal with
    | none =>
      refine (parses_call hn c hc hl).mono (fun e d _ he => ?_) (fun _ _ h => h)
      exact ⟨⟨he.stretch.imp (.refl _) fun ts hts => .unaryCall hts, he.regular⟩, he.shorter⟩
    | some op =>
      have ht := terminal_of_prefixOp? hop
      have hend : c.current.terminal ≠ .endOfInput := ht ▸ op.terminal_ne_endOfInput
      refine (Stretch.refl c).pass hc hend fun d _ hlt h => ?_
      have hd := h.sound hc
      refine h.bind (ih (hn.mono (Nat.le_succ _)) d hd (by omega)) fun e d' he => ?_
      have hshorter := he.shorter
      refine ⟨⟨(h.trans he.stretch).imp ?_ ?_, .unary he.regular⟩, by omega⟩
      · show List.Perm e.ids (Expr.ids _)
        rw [Expr.ids]
      · rintro _ ⟨_, ts, rfl, ⟨_, _, rfl, rfl, rfl⟩, hts⟩
        exact .unary ht hts

/-! ## The ladder -/

theorem parses_disjunction {nested : Parser Expr} {fuel : Nat}
    (hn : Parses (.expression .expression) nested fuel) :
    Parses (.expression (.operation .disjunction)) (disjunction nested fuel) (fuel + 1) := by
  have hfactor := parses_chain .product (parses_unary hn)
  have hterm := parses_chain .sum hfactor
  have hcomparison := parses_chain .comparison hterm
  have hequality := parses_chain .equality hcomparison
  have hconjunction := parses_chain .conjunction hequality
  exact parses_chain .disjunction hconjunction

theorem Grammar.Expression.of_variable {rank : Grammar.Rank} {ts : List Token} {e : Expr}
    {use : Occurrence} (h : Grammar.Expression rank ts e) (he : e = .variable use) :
    ts = [use.name] ∧ use.name.IsName := by
  match h with
  | .variable hname =>
    cases he
    exact ⟨rfl, hname⟩
  | .callPrimary h => exact of_variable h he
  | .unaryCall h => exact of_variable h he
  | .operand h => exact of_variable h he
  | .disjunction h => exact of_variable h he
  | .literal _ | .this _ | .super _ _ _
  | .grouping _ _ _ | .call _ _ _ _ _ | .get _ _ _ | .unary _ _ | .binary _ _ _ _
  | .logical _ _ _ _ | .assign _ _ _ | .set _ _ _ _ _ => cases he
termination_by structural h

theorem Grammar.Expression.of_get {rank : Grammar.Rank} {ts : List Token} {e object : Expr}
    {name : Token} (h : Grammar.Expression rank ts e) (he : e = .get object name) :
    ∃ us dot, ts = us ++ [dot, name] ∧ Grammar.Expression .call us object ∧ dot.IsMark .dot ∧
      name.IsName := by
  match h with
  | .get hobject hdot hname =>
    cases he
    exact ⟨_, _, rfl, hobject, hdot, hname⟩
  | .callPrimary h => exact of_get h he
  | .unaryCall h => exact of_get h he
  | .operand h => exact of_get h he
  | .disjunction h => exact of_get h he
  | .literal _ | .this _ | .super _ _ _
  | .grouping _ _ _ | .call _ _ _ _ _ | .variable _ | .unary _ _ | .binary _ _ _ _
  | .logical _ _ _ _ | .assign _ _ _ | .set _ _ _ _ _ => cases he
termination_by structural h

/-- What an assignment to a target that was read already builds. -/
theorem ensures_assignTo {c d e f : Cursor} {target value : Expr} {equals : Token}
    (htarget : Takes (.expression (.operation .disjunction)) c target d)
    (hequals : d.Passes equals e) (hmark : equals.IsMark .equal)
    (hvalue : Takes (.expression .expression) e value f) :
    Ensures (assignTo target equals value) f (Takes (.expression .expression) c) (Halted c) := by
  have hshorter := htarget.shorter
  have hle := (hequals.leads.trans hvalue.stretch.leads).length_le
  have hreg : target.Regular := htarget.regular
  have h := (htarget.stretch.trans (.ofPasses hequals)).trans hvalue.stretch
  unfold assignTo
  split
  · rename_i use
    -- the number of the variable that was read first is given up
    have hname : Stretch c [] _ d := ⟨htarget.stretch.leads, .nil, htarget.stretch.written⟩
    have h := ((hname.trans (.ofPasses hequals)).trans hvalue.stretch).trans (.freshId f)
    cases hreg with
    | «variable» hnames =>
      refine ⟨⟨h.imp ?_ ?_, .assign hnames hvalue.regular⟩, Nat.lt_of_le_of_lt hle hshorter⟩
      · show List.Perm (value.ids ++ [f.nextId]) (Expr.ids _)
        rw [Expr.ids]
        exact List.perm_append_singleton _ _
      · rintro _ ⟨_, _, rfl, ⟨_, us, rfl, ⟨ts, _, rfl, hts, rfl⟩, hus⟩, rfl⟩
        obtain ⟨rfl, hname⟩ := Grammar.Expression.of_variable hts rfl
        rw [List.append_nil]
        exact .assign hname hmark hus
  · rename_i object name
    cases hreg with
    | get hobject hnames =>
      refine ⟨⟨h.imp ?_ ?_, .set hobject hnames hvalue.regular⟩, Nat.lt_of_le_of_lt hle hshorter⟩
      · show List.Perm (Expr.ids (.get object name) ++ [] ++ value.ids) (Expr.ids _)
        rw [List.append_nil, Expr.ids, Expr.ids]
      · rintro _ ⟨_, us, rfl, ⟨_, _, rfl, hts, rfl⟩, hus⟩
        obtain ⟨ts, dot, rfl, hobject, hdot, hname⟩ := Grammar.Expression.of_get hts rfl
        rw [List.append_assoc, List.append_assoc]
        exact .set hobject hdot hname hmark hus
  · rw [ensures_bind, ensures_complain]
    obtain ⟨hleads, hheard⟩ := leads_note (c := f) .invalidTarget equals.position
    have hall := h.leads.trans hleads
    refine ⟨⟨⟨hall, ?_, fun hs => ?_⟩, hreg⟩, Nat.lt_of_le_of_lt hle hshorter⟩
    · exact htarget.stretch.numbered.widen (Nat.le_refl _)
        (Nat.le_trans (hequals.leads.trans hvalue.stretch.leads).nextId hleads.nextId)
    · exact absurd (h.leads.silent_of_trans hleads hs).2 hheard

theorem parses_assignment {nested : Parser Expr} {fuel : Nat}
    (hn : Parses (.expression .expression) nested fuel) :
    Parses (.expression .expression) (assignment nested fuel) (fuel + 1) := by
  intro c hc hl
  rw [assignment]
  refine (parses_disjunction hn c hc hl).bind (fun target d _ htarget => ?_) (fun _ _ h => h)
  have hshorter := htarget.shorter
  have hd := htarget.stretch.sound hc
  refine htarget.stretch.bind (ensures_accept? hd (by simp)) fun o e ho => ?_
  cases o with
  | none =>
    obtain ⟨rfl, -⟩ := ho
    exact ⟨⟨htarget.stretch.imp (.refl _) fun ts hts => .disjunction hts, htarget.regular⟩, hshorter⟩
  | some equals =>
    obtain ⟨hpass, hequals, -⟩ := ho
    have hlt := hpass.length_lt
    have h := htarget.stretch.trans (.ofPasses hpass)
    refine h.bind (hn e (h.sound hc) (by omega)) fun value f hvalue => ?_
    exact ensures_assignTo htarget hpass (Token.terminal_eq_punct.mp hequals) hvalue

/-- **A whole expression is read in front of fewer tokens than there is fuel.** -/
theorem parses_expression (fuel : Nat) :
    Parses (.expression .expression) (expression fuel) fuel := by
  induction fuel with
  | zero => exact fun c _ hl => absurd hl (Nat.not_lt_zero _)
  | succ fuel ih => exact parses_assignment ih

end Lox
