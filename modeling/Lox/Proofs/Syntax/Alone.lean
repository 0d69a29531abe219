import Lox.Proofs.Syntax.Behind

/-!
# A text that is one expression

No rule for expressions tells the end of the text from a semicolon. So a text is an expression if and
only if it is a program of one statement with a semicolon on the line behind it.

* `lexed_of_semicolon`: the scanner finds no problem in a text that has none in front of a semicolon;
* `expression_of_clean`: what is known of a text that is an expression;
* `parseExpression_of_expression`: every expression of the grammar is read;
* **`parseExpression_iff`**: a text is an expression if and only if it is an expression statement
  with a semicolon behind it, and then both have the same tree;
* `isExpression_iff`: that is so whatever number the first occurrence has.
-/

namespace Lox

open Lox.Parser

/-! ## The scanner in front of a semicolon -/

/-- A string without an end has none on the next line either, unless there is a quote. -/
theorem munch_unterminated {c : Char} {cs text : List Char} (hquote : '"' ∉ text)
    (h : (munch c cs).lexeme = .problem .unterminatedString) :
    (munch c (cs ++ '\n' :: text)).lexeme = .problem .unterminatedString := by
  obtain ⟨hc, hcs⟩ : c = '"' ∧ '"' ∉ cs := by
    have happend := taken_append_rest c cs
    have hcovers := munch_problem h
    generalize (munch c cs).taken = taken, (munch c cs).rest = rest at happend hcovers
    cases hcovers with
    | unterminated hcontents =>
      obtain ⟨rfl, rfl⟩ := List.cons.inj happend
      exact ⟨rfl, by simpa using hcontents⟩
  have hnone : (cs ++ '\n' :: text).dropWhile (· != '"') = [] := by
    rw [List.dropWhile_eq_nil_iff]
    intro d hd
    have : d ≠ '"' := by
      rintro rfl
      simp [hcs, hquote] at hd
    simpa using this
  rw [hc]
  show (Munch.quoted '"' (cs ++ '\n' :: text)).lexeme = _
  rw [Munch.quoted, hnone]

namespace Scanner

/-- Problems of the scanner do not go away by what stands on the next line, unless it has a quote. -/
theorem lexed_of_extend {text : List Char} (hquote : '"' ∉ text) {s : Scanner}
    (hf : s.finished = false)
    (hok : ∀ item ∈ ({ s with rest := s.rest ++ '\n' :: text } : Scanner).items, ∃ t, item = .ok t) :
    ∀ item ∈ s.items, ∃ t, item = .ok t := by
  generalize hn : s.rest.length = n
  induction n using Nat.strongRecOn generalizing s with
  | ind n ih =>
    cases hr : s.rest with
    | nil =>
      rw [items_nil hf hr]
      exact List.forall_mem_singleton.mpr ⟨_, rfl⟩
    | cons c cs =>
      have hlt : (munch c cs).rest.length < n := by
        rw [← hn, hr]
        exact length_rest_lt c cs
      have hlong := items_cons (s := { s with rest := s.rest ++ '\n' :: text }) hf
        (show s.rest ++ '\n' :: text = c :: (cs ++ '\n' :: text) by rw [hr, List.cons_append])
      -- what the scanner yields behind the lexeme, from any number on
      have hbehind := fun id (hall : ∀ item ∈ ({ s.pass (munch c cs).taken
          ((munch c cs).rest ++ '\n' :: text) with nextId := id } : Scanner).items, ∃ t, item = .ok t) =>
        ih _ hlt (s := { s.pass (munch c cs).taken (munch c cs).rest with nextId := id }) hf hall rfl
      rw [items_cons hf hr]
      rw [hlong] at hok
      by_cases hm : (munch c cs).lexeme = .problem .unterminatedString
      · rw [munch_unterminated hquote hm] at hok
        obtain ⟨t, ht⟩ := hok _ List.mem_cons_self
        cases ht
      · rw [munch_extend text hm] at hok
        cases hlexeme : (munch c cs).lexeme with
        | dropped =>
          simp only [Munch.extend, hlexeme] at hok
          exact hbehind s.nextId hok
        | token kind =>
          simp only [Munch.extend, hlexeme] at hok
          exact List.forall_mem_cons.mpr ⟨⟨_, rfl⟩,
            hbehind (s.nextId + 1) fun item hmem => hok item (List.mem_cons_of_mem _ hmem)⟩
        | problem p =>
          simp only [Munch.extend, hlexeme] at hok
          obtain ⟨t, ht⟩ := hok _ List.mem_cons_self
          cases ht

end Scanner

section

variable (source : String) (n : ExprId)

theorem lexed_of_semicolon (h : (scan (source ++ "\n" ++ ";")).all Except.isOk = true) :
    (scan source).all Except.isOk = true := by
  rw [lexed_iff] at h ⊢
  have hquote : '"' ∉ [';'] := by decide
  refine Scanner.lexed_of_extend hquote (s := .ofString source) rfl ?_
  have hwhole : scan (source ++ "\n" ++ ";") =
      ({ Scanner.ofString source with rest := source.toList ++ '\n' :: [';'] } : Scanner).items := by
    simp [scan, Scanner.ofString, String.toList_append]
  rwa [hwhole] at h

/-! ## Texts that are expressions -/

variable {source n}

theorem takes_of_clean {e : Expr} (hclean : (parseExpression source n).clean = true)
    (htree : (parseExpression source n).tree = some e) :
    ∃ d, expression (enoughFuel (scan source)) (.start (scan source) n) = .ok e d ∧
      Takes (.expression .expression) (.start (scan source) n) e d ∧
      d.current.terminal = .endOfInput ∧ d.complaints = [] ∧
      (parseExpression source n).nextId = d.nextId := by
  have hlength : (Cursor.start (scan source) n).tokens.length < enoughFuel (scan source) := by
    rw [tokens_start, enoughFuel]
    have : (tokens source).length ≤ (scan source).length := List.length_filterMap_le _ _
    omega
  have hwhole : Ensures (wholeExpression (enoughFuel (scan source))) (.start (scan source) n)
      (fun o d => ∀ e ∈ o, expression (enoughFuel (scan source)) (.start (scan source) n) = .ok e d ∧
        Takes (.expression .expression) (.start (scan source) n) e d ∧
        d.current.terminal = .endOfInput)
      (Halted (.start (scan source) n)) := by
    rw [wholeExpression]
    refine (parses_expression _ _ (sound_start source n) hlength).bind (fun e' d hx he => ?_)
      fun _ _ h => h
    rw [ensures_bind, ensures_peek]
    split
    · rename_i hend
      rintro _ ⟨⟩
      exact ⟨hx, he, by simpa using hend⟩
    · intro _ hnone
      cases hnone
  rw [Parsed.clean, List.isEmpty_iff] at hclean
  unfold parseExpression Parser.run at hclean htree ⊢
  cases hx : wholeExpression (enoughFuel (scan source)) (.start (scan source) n) with
  | ok o d =>
    rw [hx] at hclean htree
    obtain ⟨hrun, htakes, hend⟩ := hwhole.ok_of_eq hx e htree
    exact ⟨d, hrun, htakes, hend, List.reverse_eq_nil_iff.mp hclean, rfl⟩
  | error halt d =>
    rw [hx] at htree
    cases htree

/-- **A text that is an expression** has no lexical problem, and the grammar has the expression. It is
numbered from the first number on. -/
theorem expression_of_clean {e : Expr} (hclean : (parseExpression source n).clean = true)
    (htree : (parseExpression source n).tree = some e) :
    (scan source).all Except.isOk = true ∧
      Grammar.Expression .expression (tokens source).dropLast e ∧
      e.Counted n (parseExpression source n).nextId := by
  obtain ⟨d, hrun, htakes, hend, hd, hid⟩ := takes_of_clean hclean htree
  have hleads := htakes.stretch.leads
  obtain ⟨ts, hts, hgram⟩ := htakes.stretch.written (hleads.silent hd)
  have hdrop : (tokens source).dropLast = ts := by
    rw [← tokens_start source n, hts, Cursor.tokens, pending_of_leads source n hleads hend,
      List.dropLast_concat]
  have hcounts := counts_expression (enoughFuel (scan source)) n (.start (scan source) n) fun _ => rfl
  rw [hdrop, hid]
  exact ⟨lexed_of_leads source n hleads hend hd, hgram, (hcounts.ok_of_eq hrun hd).2⟩

/-- **Every expression of the grammar is read as the tree it stands for.** -/
theorem parseExpression_of_expression {e : Expr} (n : ExprId)
    (hlexed : (scan source).all Except.isOk = true)
    (he : Grammar.Expression .expression (tokens source).dropLast e) :
    (parseExpression source n).clean = true ∧
      ∃ e', (parseExpression source n).tree = some e' ∧ e.Same e' := by
  obtain ⟨t, htokens, ht⟩ := (ended_tokens source).exists_concat
  have hface := faces_start n hlexed
  rw [htokens] at hface
  have hstops : Stops .expression [t] := by
    rw [stops_cons, ht]
    exact nofun
  have haccepts : Ensures (wholeExpression (enoughFuel (scan source))) (.start (scan source) n)
      (fun o d => (∃ e', o = some e' ∧ e.Same e') ∧ d.complaints = []) OutOfFuel := by
    rw [wholeExpression]
    refine (he.acceptedAt (enoughFuel (scan source)) [t] hstops).bind hface fun e' d hsame hd => ?_
    refine hd.peek ?_
    rw [if_pos (by rw [ht]; rfl)]
    exact ⟨⟨e', rfl, hsame⟩, hd.silent⟩
  have hreads := ensures_parseExpression source n
  unfold parseExpression Parser.run
  cases hx : wholeExpression (enoughFuel (scan source)) (.start (scan source) n) with
  | ok o d =>
    obtain ⟨htree, hd⟩ := haccepts.ok_of_eq hx
    refine ⟨?_, htree⟩
    show d.complaints.reverse.isEmpty = true
    rw [hd]
    rfl
  | error halt d =>
    -- the rules of the grammar never run out of fuel
    have hproblem := (hreads.halt_of_eq hx).1
    have hfuel : halt = .outOfFuel := haccepts.halt_of_eq hx
    rw [hfuel] at hproblem
    cases hproblem

theorem Grammar.Declarations.of_expression {ts : List Token} {e : Expr}
    (h : Grammar.Declarations ts [.expression e]) :
    ∃ us semicolon, ts = us ++ [semicolon] ∧ Grammar.Expression .expression us e := by
  cases h with
  | cons hs hss =>
    cases hss
    rw [List.append_nil]
    cases hs with
    | «variable» hs => cases hs
    | statement hs =>
      cases hs with
      | expression hs =>
        cases hs with
        | mk he hsemicolon => exact ⟨_, _, rfl, he⟩

/-! ## With a semicolon behind it -/

theorem tokens_semicolon (hlexed : (scan source).all Except.isOk = true) :
    ∃ semicolon : Token, semicolon.IsMark .semicolon ∧
      (tokens (source ++ "\n" ++ ";")).dropLast = (tokens source).dropLast ++ [semicolon] ∧
      (scan (source ++ "\n" ++ ";")).all Except.isOk = true := by
  obtain ⟨lines, bytes, ids, htokens, hall⟩ := tokens_join hlexed ";"
  have hscan : scan ";" = [.ok ⟨.punct .semicolon, ";", ⟨1, 0, 1⟩, 0⟩,
      .ok ⟨.endOfInput, "", ⟨1, 1, 1⟩, 1⟩] := by
    show (⟨[';'], 0, 1, 0, false⟩ : Scanner).items = _
    rw [Scanner.items_cons (c := ';') rfl rfl]
    show _ :: (⟨[], 1, 1, 1, false⟩ : Scanner).items = _
    rw [Scanner.items_nil rfl rfl]
    rfl
  have hmark : tokens ";" = [⟨.punct .semicolon, ";", ⟨1, 0, 1⟩, 0⟩, ⟨.endOfInput, "", ⟨1, 1, 1⟩, 1⟩] := by
    rw [tokens, hscan]
    rfl
  refine ⟨(⟨.punct .semicolon, ";", ⟨1, 0, 1⟩, 0⟩ : Token).relocate (.behind lines bytes ids), rfl, ?_, ?_⟩
  · rw [htokens, hmark, List.dropLast_append_of_ne_nil (by simp)]
    rfl
  · rw [hall, hscan]
    rfl

theorem parse_semicolon_of_same {e e' : Expr} (hclean : (parseExpression source n).clean = true)
    (htree : (parseExpression source n).tree = some e)
    (hparse : (parse (source ++ "\n" ++ ";") n).clean = true)
    (hprogram : Stmt.unnumberedAll (parse (source ++ "\n" ++ ";") n).tree =
      Stmt.unnumberedAll [.expression e']) (h : e'.Same e) :
    (parse (source ++ "\n" ++ ";") n).tree = [.expression e] ∧
      (parse (source ++ "\n" ++ ";") n).nextId = (parseExpression source n).nextId := by
  have hcounted := (expression_of_clean hclean htree).2.2
  have hexpression : Stmt.CountedAll n [.expression e] (parseExpression source n).nextId := by
    unfold Expr.Counted at hcounted
    simp only [Stmt.CountedAll, Stmt.countAll, Stmt.count, hcounted]
  have hunnumbered : Stmt.unnumberedAll [.expression e'] = Stmt.unnumberedAll [.expression e] :=
    congrArg (fun e => [Stmt.expression e]) h
  have hwhole := counted_parse hparse
  rw [Stmt.CountedAll, ← Stmt.countAll_unnumbered] at hexpression hwhole
  rw [hprogram, hunnumbered, hexpression, Prod.mk.injEq] at hwhole
  exact ⟨hwhole.1.symm, hwhole.2.symm⟩

theorem parse_semicolon {e : Expr} (hclean : (parseExpression source n).clean = true)
    (htree : (parseExpression source n).tree = some e) :
    (parse (source ++ "\n" ++ ";") n).clean = true ∧
      (parse (source ++ "\n" ++ ";") n).tree = [.expression e] ∧
      (parse (source ++ "\n" ++ ";") n).nextId = (parseExpression source n).nextId := by
  obtain ⟨hlexed, hgram, -⟩ := expression_of_clean hclean htree
  obtain ⟨semicolon, hmark, htokens, hall⟩ := tokens_semicolon hlexed
  have hprogram : Grammar.Declarations ((tokens source).dropLast ++ [semicolon]) [.expression e] := by
    have := Grammar.Declarations.cons (.statement (.expression (.mk hgram hmark))) .nil
    rwa [List.append_nil] at this
  rw [← htokens] at hprogram
  obtain ⟨hparse, hunnumbered⟩ := parse_of_accepted n hall hprogram.accepted
  exact ⟨hparse, parse_semicolon_of_same hclean htree hparse hunnumbered rfl⟩

theorem parseExpression_of_semicolon {e : Expr}
    (hclean : (parse (source ++ "\n" ++ ";") n).clean = true)
    (htree : (parse (source ++ "\n" ++ ";") n).tree = [.expression e]) :
    (parseExpression source n).clean = true ∧ (parseExpression source n).tree = some e := by
  have hlexed := lexed_of_semicolon source (lexed_of_clean _ n hclean)
  obtain ⟨semicolon, -, htokens, -⟩ := tokens_semicolon hlexed
  have hprogram := declarations_of_clean _ n hclean
  rw [htree, htokens] at hprogram
  obtain ⟨us, semicolon', hus, hgram⟩ := hprogram.of_expression
  obtain ⟨rfl, -⟩ := List.append_inj' hus rfl
  obtain ⟨hexpression, e', he', hsame⟩ := parseExpression_of_expression n hlexed hgram
  have hstatement := (parse_semicolon_of_same hexpression he' hclean (by rw [htree]) hsame).1
  rw [htree, List.cons.injEq, Stmt.expression.injEq] at hstatement
  exact ⟨hexpression, hstatement.1 ▸ he'⟩

/-- **A text is an expression if and only if it is an expression statement with a semicolon on the
line behind it.** The expression is the same tree, its numbers included. -/
theorem parseExpression_iff (source : String) (n : ExprId) (e : Expr) :
    (parseExpression source n).clean = true ∧ (parseExpression source n).tree = some e ↔
      (parse (source ++ "\n" ++ ";") n).clean = true ∧
        (parse (source ++ "\n" ++ ";") n).tree = [.expression e] :=
  ⟨fun h => ⟨(parse_semicolon h.1 h.2).1, (parse_semicolon h.1 h.2).2.1⟩,
    fun h => parseExpression_of_semicolon h.1 h.2⟩

/-- Whether a text is an expression does not depend on the number of its first occurrence. -/
theorem isExpression_iff (source : String) (n : ExprId) :
    isExpression source = true ↔
      ∃ e, (parseExpression source n).clean = true ∧ (parseExpression source n).tree = some e := by
  have hshift := parseExpression_shift source 0 n
  rw [Nat.zero_add] at hshift
  rw [isExpression, Bool.and_eq_true, hshift]
  show _ ↔ ∃ e, (parseExpression source 0).clean = true ∧
    (parseExpression source 0).tree.map (Expr.shift n) = some e
  cases (parseExpression source 0).tree with
  | none => simp
  | some e => simp

end

end Lox
