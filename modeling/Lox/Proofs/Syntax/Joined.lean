import Lox.Proofs.Syntax.AcceptStatement
import Lox.Proofs.Syntax.Counting
import Lox.Proofs.Token.Joined

/-!
# The tree of two texts

Two texts without problems, one on the line behind the other, have the trees that each of them has
alone. Only an `else` in front of the second one could belong to the first one.

* `Grammar.Declarations.go_on`: behind the declarations of the first text the parser goes on with
  those of the second one;
* **`clean_of_join`**: parts of a text without problems are without problems;
* **`parse_join`**: the tree of both texts is the tree of the first one and behind it the tree of the
  second one, with its tokens at other places.
-/

namespace Lox

open Lox.Parser

/-! ## Going on behind a program -/

theorem Grammar.Declaration.go_on {ts rest : List Token} {s : Stmt} (h : Grammar.Declaration ts s)
    (hrest : NoElse rest) (n : Nat) {ok : List Stmt → Cursor → Prop}
    (hok : ∀ read fuel (d : Cursor), d.Faces rest → rest.length ≤ fuel →
      Ensures (declarationsFrom (declaration n) .endOfInput read fuel) d ok fun _ _ => True)
    (read : Array Stmt) (fuel : Nat) {c : Cursor} (hc : c.Faces (ts ++ rest))
    (hl : (ts ++ rest).length ≤ fuel) :
    Ensures (declarationsFrom (declaration n) .endOfInput read fuel) c ok fun _ _ => True := by
  obtain ⟨t, ts', rfl, ht⟩ := h.begins
  have hend : t.terminal ≠ .endOfInput := by
    intro he
    rw [he] at ht
    cases ht
  cases fuel with
  | zero => simp at hl
  | succ fuel =>
    rw [declarationsFrom, ensures_bind, ensures_goesOnUnless, hc.current, if_pos (by simp [hend])]
    refine (h.accepted.accepts n hrest c hc).bind ?_ (fun _ _ _ => trivial)
    rintro _ d - ⟨⟨s', rfl, -⟩, hd⟩
    refine hok _ fuel d hd ?_
    rw [List.cons_append, List.length_cons, List.length_append] at hl
    omega

theorem Grammar.Declarations.noElse_append {ts rest : List Token} {ss : List Stmt}
    (h : Grammar.Declarations ts ss) (hrest : NoElse rest) : NoElse (ts ++ rest) := by
  obtain rfl | ⟨t, ts', rfl, ht⟩ := h.begins
  · exact hrest
  · refine noElse_cons.mpr fun he => ?_
    rw [he] at ht
    cases ht

/-- **Behind the declarations that the grammar has, the rule goes on with what follows them.** -/
theorem Grammar.Declarations.go_on {ts rest : List Token} {ss : List Stmt}
    (h : Grammar.Declarations ts ss) (hrest : NoElse rest) (n : Nat) {ok : List Stmt → Cursor → Prop}
    (hok : ∀ read fuel (d : Cursor), d.Faces rest → rest.length ≤ fuel →
      Ensures (declarationsFrom (declaration n) .endOfInput read fuel) d ok fun _ _ => True)
    (read : Array Stmt) (fuel : Nat) {c : Cursor} (hc : c.Faces (ts ++ rest))
    (hl : (ts ++ rest).length ≤ fuel) :
    Ensures (declarationsFrom (declaration n) .endOfInput read fuel) c ok fun _ _ => True := by
  match h with
  | .nil => exact hok read fuel c hc hl
  | .cons hs hss =>
    rw [List.append_assoc] at hc hl
    exact hs.go_on (hss.noElse_append hrest) n
      (fun read' fuel' _ hd hf => hss.go_on hrest n hok read' fuel' hd hf) read fuel hc hl
termination_by structural h

/-! ## Two texts -/

section

variable {first second : String} {n : ExprId}

theorem lexed_iff {source : String} :
    (scan source).all Except.isOk = true ↔ ∀ item ∈ scan source, ∃ t, item = .ok t := by
  rw [List.all_eq_true]
  refine forall₂_congr fun item _ => ?_
  cases item <;> simp [Except.isOk, Except.toBool]

/-- **The tokens of two texts**, the first one without problems: those of the first one but for its
end, and behind them those of the second one. -/
theorem tokens_join (hlexed : (scan first).all Except.isOk = true) (second : String) :
    ∃ lines bytes ids,
      tokens (first ++ "\n" ++ second) =
        (tokens first).dropLast ++ (tokens second).map (Token.relocate (.behind lines bytes ids)) ∧
      (scan (first ++ "\n" ++ second)).all Except.isOk = (scan second).all Except.isOk := by
  obtain ⟨ts, last, lines, bytes, hfirst, hjoin⟩ := scan_join second (lexed_iff.mp hlexed)
  refine ⟨lines, bytes, ts.length, ?_, ?_⟩
  · rw [tokens, hjoin, List.filterMap_append, filterMap_map_ok, filterMap_relocate, tokens, hfirst,
      filterMap_map_ok, List.dropLast_concat, tokens]
  · rw [hjoin, List.all_append, List.all_map, List.all_map]
    have hall : ts.all (Except.isOk ∘ (Except.ok : Token → Item)) = true := by
      simp [Except.isOk, Except.toBool]
    rw [hall, Bool.true_and]
    congr 1
    funext item
    cases item <;> rfl

/-- **The second part of a text without problems is a text without problems**, if the first one is
and no `else` stands between them. -/
theorem clean_of_join {m k : ExprId} (hfirst : (parse first m).clean = true)
    (hjoin : (parse (first ++ "\n" ++ second) n).clean = true)
    (helse : ∀ t ∈ (tokens second).head?, t.terminal ≠ .keyword .else) :
    (parse second k).clean = true := by
  obtain ⟨lines, bytes, ids, htokens, hlexed⟩ := tokens_join (lexed_of_clean _ _ hfirst) second
  rw [lexed_of_clean _ _ hjoin] at hlexed
  have hnoElse : NoElse ((tokens second).map (Token.relocate (.behind lines bytes ids))) := by
    intro t ht
    rw [List.head?_map, Option.mem_def, Option.map_eq_some_iff] at ht
    obtain ⟨u, hu, rfl⟩ := ht
    exact helse u hu
  have hface := faces_start n (lexed_of_clean _ _ hjoin)
  rw [htokens] at hface
  have hlength : (tokens (first ++ "\n" ++ second)).length ≤ (scan (first ++ "\n" ++ second)).length :=
    List.length_filterMap_le _ _
  rw [htokens] at hlength
  obtain ⟨d, hrun, -, -, hd⟩ := reads_of_clean _ n hjoin
  have hgo : Ensures (declarations (enoughFuel (scan (first ++ "\n" ++ second))))
      (.start (scan (first ++ "\n" ++ second)) n)
      (fun _ e => e.complaints = [] → ∃ ss, Grammar.Declarations
        ((tokens second).map (Token.relocate (.behind lines bytes ids))).dropLast ss)
      fun _ _ => True := by
    refine (declarations_of_clean first m hfirst).go_on hnoElse
      (enoughFuel (scan (first ++ "\n" ++ second))) ?_ #[]
      (enoughFuel (scan (first ++ "\n" ++ second))) hface (by rw [enoughFuel]; omega)
    intro read fuel d hd hfuel
    refine (ensures_declarationsFrom (declares_declaration _).1 .endOfInput read hd.sound ?_ ?_).mono ?_
      (fun _ _ _ => trivial)
    · rw [hd.tokens, enoughFuel]
      rw [List.length_append] at hlength
      omega
    · rw [hd.tokens]
      exact hfuel
    · rintro _ e - ⟨ss, -, hreads, hend⟩ he
      obtain ⟨us, hus, hgram⟩ := hreads.stretch.written (hreads.stretch.leads.silent he)
      have hlast : e.pending.filterMap Except.toOption = [] :=
        (hreads.stretch.leads.sound hd.sound).ended.eq_singleton (hend.elim id id)
      rw [← hd.tokens, hus, Cursor.tokens, hlast, List.dropLast_concat]
      exact ⟨ss, hgram⟩
  obtain ⟨ss, hss⟩ := hgo.ok_of_eq hrun hd
  have hback := hss.relocate (.backFrom lines bytes ids)
  rw [List.map_dropLast, Token.map_relocate_backFrom] at hback
  exact (parse_of_accepted k hlexed.symm hback.accepted).1

/-- **The tree of two texts without problems** is the tree of the first one and behind it the tree
of the second one, with its tokens at other places and its numbers moved on. -/
theorem parse_join (hfirst : (parse first n).clean = true)
    (hsecond : (parse second (parse first n).nextId).clean = true) :
    ∃ r, (parse (first ++ "\n" ++ second) n).clean = true ∧
      (parse (first ++ "\n" ++ second) n).tree = (parse first n).tree ++
        Stmt.relocateAll r (parse second (parse first n).nextId).tree ∧
      (parse (first ++ "\n" ++ second) n).nextId = (parse second (parse first n).nextId).nextId := by
  obtain ⟨lines, bytes, ids, htokens, hlexed⟩ := tokens_join (lexed_of_clean _ _ hfirst) second
  rw [lexed_of_clean _ _ hsecond] at hlexed
  have hprogram := (declarations_of_clean _ _ hfirst).append
    ((declarations_of_clean _ _ hsecond).relocate (.behind lines bytes ids))
  rw [List.map_dropLast, ← List.dropLast_append_of_ne_nil (by simp [(ended_tokens second).ne_nil]),
    ← htokens] at hprogram
  obtain ⟨hclean, htree⟩ := parse_of_accepted n hlexed hprogram.accepted
  -- both trees have the numbers that the parser gives, and nothing else tells them apart
  have hparts : Stmt.CountedAll (parse first n).nextId
      (Stmt.relocateAll (.behind lines bytes ids) (parse second (parse first n).nextId).tree)
      (parse second (parse first n).nextId).nextId := by
    rw [Stmt.CountedAll, Stmt.countAll_relocate, counted_parse hsecond]
  have hwhole := (counted_parse hfirst).append hparts
  have hcounted := counted_parse hclean
  rw [Stmt.CountedAll, ← Stmt.countAll_unnumbered] at hwhole hcounted
  rw [htree, hwhole, Prod.mk.injEq] at hcounted
  exact ⟨.behind lines bytes ids, hclean, hcounted.1.symm, hcounted.2.symm⟩

end

end Lox
