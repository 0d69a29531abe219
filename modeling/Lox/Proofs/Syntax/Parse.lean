import Lox.Proofs.Syntax.ReadStatement
import Lox.Proofs.Token.Scanned

/-!
# What the parser returns

* **`regular_parse`**, **`numbered_parse`**: every text yields a regular tree with new numbers;
* **`regular_parseExpression`**, **`numbered_parseExpression`**: so does a text that is an expression;
* **`declarations_of_clean`**: a text without problems is a program of the grammar, and its tree
  stands for it.
-/

namespace Lox

theorem Ended.eq_singleton {t : Token} {ts : List Token} (h : Ended (t :: ts))
    (ht : t.terminal = .endOfInput) : ts = [] := by
  cases h with
  | last _ => rfl
  | cons hne _ => exact absurd ht hne

section

variable (source : String) (firstId : ExprId)

theorem ensures_parse :
    Ensures (Parser.declarations (Parser.enoughFuel (scan source)))
      (Cursor.start (scan source) firstId)
      (fun ss d => Reads .declarations (Cursor.start (scan source) firstId) ss d ∧
        d.current.terminal = .endOfInput)
      (Halted (Cursor.start (scan source) firstId)) := by
  refine reads_declarations (sound_start source firstId) ?_
  rw [tokens_start, Parser.enoughFuel]
  have : (tokens source).length ≤ (scan source).length := List.length_filterMap_le _ _
  omega

/-- **Whatever the text, the parser returns a regular tree.** -/
theorem regular_parse : ∀ s ∈ (parse source firstId).tree, s.Regular := by
  have h := ensures_parse source firstId
  unfold parse Parser.run
  cases hx : Parser.declarations (Parser.enoughFuel (scan source))
      (Cursor.start (scan source) firstId) with
  | ok tree d => exact (h.ok_of_eq hx).1.regular
  | error e d => exact fun s hs => absurd hs List.not_mem_nil

/-- **Whatever the text, the occurrences of the tree have numbers of their own, from the first free
one up to the next free one.** -/
theorem numbered_parse :
    firstId ≤ (parse source firstId).nextId ∧
      Numbered firstId (parse source firstId).nextId (Stmt.idsAll (parse source firstId).tree) := by
  have h := ensures_parse source firstId
  unfold parse Parser.run
  cases hx : Parser.declarations (Parser.enoughFuel (scan source))
      (Cursor.start (scan source) firstId) with
  | ok tree d =>
    have hreads := (h.ok_of_eq hx).1.stretch
    exact ⟨hreads.leads.nextId, hreads.numbered⟩
  | error e d =>
    refine ⟨(h.halt_of_eq hx).2.1.nextId, ?_⟩
    show Numbered _ _ (Stmt.idsAll [])
    rw [Stmt.idsAll]
    exact .nil

/-- **What the parser complains about are errors.** -/
theorem grave_parse : Grave (parse source firstId).complaints := by
  have h := ensures_parse source firstId
  unfold parse Parser.run
  cases hx : Parser.declarations (Parser.enoughFuel (scan source))
      (Cursor.start (scan source) firstId) with
  | ok tree d =>
    have hleads := (h.ok_of_eq hx).1.stretch.leads
    simpa [Grave] using hleads.grave (grave_start source firstId)
  | error e d =>
    have hleads := (h.halt_of_eq hx).2.1
    simpa [Grave] using hleads.grave (grave_start source firstId)

/-! ## Single expressions -/

/-- What was read of a text that should be a single expression. -/
structure ReadsAlone (c : Cursor) (e : Option Expr) (d : Cursor) : Prop where
  leads : c.Leads d
  numbered : Numbered c.nextId d.nextId (Expr.idsOption e)
  regular : ∀ x ∈ e, x.Regular
  heard : e = none → ¬ c.Silent d

theorem ensures_parseExpression :
    Ensures (Parser.wholeExpression (Parser.enoughFuel (scan source)))
      (Cursor.start (scan source) firstId) (ReadsAlone (Cursor.start (scan source) firstId))
      (Halted (Cursor.start (scan source) firstId)) := by
  have hlength : (Cursor.start (scan source) firstId).tokens.length <
      Parser.enoughFuel (scan source) := by
    rw [tokens_start, Parser.enoughFuel]
    have : (tokens source).length ≤ (scan source).length := List.length_filterMap_le _ _
    omega
  rw [Parser.wholeExpression]
  refine (parses_expression _ _ (sound_start source firstId) hlength).bind (fun e c _ he => ?_)
    fun _ _ h => h
  have hread := he.stretch
  rw [ensures_bind, Parser.ensures_peek]
  split
  · exact ⟨hread.leads, hread.numbered, fun x hx => Option.mem_some.mp hx ▸ he.regular, nofun⟩
  · have hnote := Parser.leads_note (c := c) .missingEnd c.current.position
    exact ⟨hread.leads.trans hnote.1, .nil, by simp,
      fun _ hs => hnote.2 (hread.leads.silent_of_trans hnote.1 hs).2⟩

theorem parseExpression_spec : ∃ d, ReadsAlone (Cursor.start (scan source) firstId)
    (parseExpression source firstId).tree d ∧
      (parseExpression source firstId).complaints = d.complaints.reverse ∧
      (parseExpression source firstId).nextId = d.nextId := by
  have h := ensures_parseExpression source firstId
  unfold parseExpression Parser.run
  cases hx : Parser.wholeExpression (Parser.enoughFuel (scan source))
      (Cursor.start (scan source) firstId) with
  | ok tree d => exact ⟨d, h.ok_of_eq hx, rfl, rfl⟩
  | error e d =>
    obtain ⟨-, hleads, hheard⟩ := h.halt_of_eq hx
    exact ⟨d, ⟨hleads, .nil, by simp, fun _ => hheard⟩, rfl, rfl⟩

/-- **A text that is an expression has occurrences with numbers of their own.** -/
theorem numbered_parseExpression :
    firstId ≤ (parseExpression source firstId).nextId ∧
      Numbered firstId (parseExpression source firstId).nextId
        (Expr.idsOption (parseExpression source firstId).tree) := by
  obtain ⟨d, hread, -, hid⟩ := parseExpression_spec source firstId
  rw [hid]
  exact ⟨hread.leads.nextId, hread.numbered⟩

/-- **The expression that a text is, is regular.** -/
theorem regular_parseExpression : ∀ e ∈ (parseExpression source firstId).tree, e.Regular := by
  obtain ⟨d, hread, -, -⟩ := parseExpression_spec source firstId
  exact hread.regular

theorem grave_parseExpression : Grave (parseExpression source firstId).complaints := by
  obtain ⟨d, hread, hcomplaints, -⟩ := parseExpression_spec source firstId
  rw [hcomplaints]
  simpa [Grave] using hread.leads.grave (grave_start source firstId)

/-- A text that is no expression has a problem. -/
theorem clean_of_tree_eq_none (h : (parseExpression source firstId).tree = none) :
    (parseExpression source firstId).clean = false := by
  obtain ⟨d, hread, hcomplaints, -⟩ := parseExpression_spec source firstId
  by_cases hd : d.complaints = []
  · have hstart := hread.leads.complaints
    rw [hd, List.suffix_nil] at hstart
    exact absurd (hd.trans hstart.symm) (hread.heard h)
  · rw [Parsed.clean, hcomplaints]
    simpa using hd

/-! ## Texts without problems -/

/-- A text without problems is read up to its end, and nothing is noted. -/
theorem reads_of_clean (hclean : (parse source firstId).clean = true) :
    ∃ d, Parser.declarations (Parser.enoughFuel (scan source)) (Cursor.start (scan source) firstId) =
        .ok (parse source firstId).tree d ∧
      Reads .declarations (Cursor.start (scan source) firstId) (parse source firstId).tree d ∧
      d.current.terminal = .endOfInput ∧ d.complaints = [] := by
  have h := ensures_parse source firstId
  rw [Parsed.clean, List.isEmpty_iff] at hclean
  unfold parse Parser.run at hclean ⊢
  cases hx : Parser.declarations (Parser.enoughFuel (scan source))
      (Cursor.start (scan source) firstId) with
  | ok tree d =>
    rw [hx] at hclean
    obtain ⟨hreads, hend⟩ := h.ok_of_eq hx
    exact ⟨d, rfl, hreads, hend, List.reverse_eq_nil_iff.mp hclean⟩
  | error e d =>
    rw [hx] at hclean
    obtain ⟨-, hleads, hheard⟩ := h.halt_of_eq hx
    exact absurd (hleads.silent (List.reverse_eq_nil_iff.mp hclean)) hheard

theorem pending_of_leads {d : Cursor} (h : (Cursor.start (scan source) firstId).Leads d)
    (hend : d.current.terminal = .endOfInput) : d.pending.filterMap Except.toOption = [] :=
  (h.sound (sound_start source firstId)).ended.eq_singleton hend

/-- **A text without problems is a program of the grammar, and its tree stands for it.** -/
theorem declarations_of_clean (hclean : (parse source firstId).clean = true) :
    Grammar.Declarations (tokens source).dropLast (parse source firstId).tree := by
  obtain ⟨d, -, ⟨hstretch, -⟩, hend, hd⟩ := reads_of_clean source firstId hclean
  obtain ⟨ts, hts, hgram⟩ := hstretch.written (hstretch.leads.silent hd)
  have hdrop : (tokens source).dropLast = ts := by
    rw [← tokens_start source firstId, hts, Cursor.tokens,
      pending_of_leads source firstId hstretch.leads hend, List.dropLast_concat]
  rw [hdrop]
  exact hgram

theorem lexed_of_leads {d : Cursor} (h : (Cursor.start (scan source) firstId).Leads d)
    (hend : d.current.terminal = .endOfInput) (hd : d.complaints = []) :
    (scan source).all Except.isOk = true := by
  obtain ⟨us, hus⟩ := h.lexed hd
  have hstart : (Cursor.start (scan source) firstId).complaints = [] := (h.silent hd).symm.trans hd
  obtain ⟨vs, hvs⟩ := Cursor.pull_lexed hstart
  have hscan : scan source = (vs ++ us).map .ok ++ d.pending := by
    rw [hvs, List.map_append, List.append_assoc, ← hus]
    rfl
  -- the last item is a token, and no token stands behind the end
  have hpending : d.pending = [] := by
    obtain ⟨front, t, hfront⟩ := Scanner.items_concat (s := .ofString source) rfl
    have hnone := pending_of_leads source firstId h hend
    rcases List.eq_nil_or_concat d.pending with hnil | ⟨items, item, hitems⟩
    · exact hnil
    · have hlast := hscan.symm.trans hfront
      rw [List.concat_eq_append] at hitems
      rw [hitems, ← List.append_assoc] at hlast
      rw [hitems, (List.append_inj' hlast rfl).2] at hnone
      simp [Except.toOption] at hnone
  rw [hscan, hpending, List.append_nil]
  simp [Except.isOk, Except.toBool]

/-- **The scanner finds no problem in a text without problems.** -/
theorem lexed_of_clean (hclean : (parse source firstId).clean = true) :
    (scan source).all Except.isOk = true := by
  obtain ⟨d, -, ⟨hstretch, -⟩, hend, hd⟩ := reads_of_clean source firstId hclean
  exact lexed_of_leads source firstId hstretch.leads hend hd

end

end Lox
