import Lox.Proofs.Syntax.Elsewhere
import Lox.Proofs.Syntax.Joined
import Lox.Proofs.Token.Tiling

/-!
# A text parsed behind a text without problems

The parser looks one token ahead, and problems of the scanner are noted when the token behind them
comes into view. Nothing else is carried over the end of a statement, so a text behind one without
problems is parsed as when it stands alone, whatever is wrong with it.

* `Relocation.after`: the places of a text that stands on the line behind another one;
* `Lockstep.inFront`: a text without problems is read as if the tokens behind it were all that
  follows it; what reads further is lost;
* `Passed`, `Grammar.Declarations.passed`: the declarations of a text without problems are read, and
  the parser stands where it would start with what follows them;
* **`parse_append`**: the tree and the complaints of two texts, the first one without problems.
-/

namespace Lox

open Lox.Parser

/-- The places of a text that stands on the line behind `text`: further on by its line ends and one
more, its bytes and one more, and its tokens but for its end. -/
def Relocation.after (text : String) : Relocation :=
  .behind (text.toList.count '\n' + 1) (text.utf8ByteSize + 1) ((tokens text).length - 1)

namespace Ended

theorem relocate {ts : List Token} (h : Ended ts) (r : Relocation) :
    Ended (ts.map (Token.relocate r)) := by
  induction h with
  | last ht => exact .last ht
  | cons ht _ ih => exact .cons ht ih

theorem append {ts us : List Token} (h : Ended ts) (h' : Ended us) : Ended (ts.dropLast ++ us) := by
  induction h with
  | last _ => exact h'
  | cons ht hts ih =>
    rw [List.dropLast_cons_of_ne_nil hts.ne_nil]
    exact .cons ht ih

end Ended

/-! ## In front of items that are not known to be well formed -/

namespace Cursor

theorem complaints_advance (c : Cursor) : c.complaints <:+ c.advance.complaints := by
  unfold advance
  split
  · exact List.suffix_refl _
  · exact (pull_spec c.current c.complaints c.pending).2.1

theorem length_pull (last : Token) (complaints : List Complaint) (items : List Item) :
    (pull last complaints items).2.1.length ≤ items.length := by
  induction items generalizing complaints with
  | nil => exact Nat.le_refl _
  | cons item items ih =>
    cases item with
    | ok t => exact Nat.le_succ _
    | error p => exact Nat.le_trans (ih _) (Nat.le_succ _)

theorem length_advance (c : Cursor) : c.advance.pending.length ≤ c.pending.length := by
  unfold advance
  split
  · exact Nat.le_refl _
  · exact length_pull c.current c.complaints c.pending

/-- Both cursors stand in front of the same tokens. Behind these the second one has all of the items,
and the first one only the tokens among them. -/
inductive InFront (items : List Item) : Cursor → Cursor → Prop where
  | inside {current : Token} {nextId : ExprId} (ts : List Token) :
      InFront items
        ⟨current, (ts ++ items.filterMap Except.toOption).map .ok, nextId, []⟩
        ⟨current, ts.map .ok ++ items, nextId, []⟩
  /-- The first token of the items is in view. -/
  | behind {nextId : ExprId} :
      InFront items
        ⟨(start items nextId).current, (items.filterMap Except.toOption).tail.map .ok, nextId, []⟩
        (start items nextId)

variable {items : List Item}

theorem tokens_eq (hended : Ended (items.filterMap Except.toOption)) (nextId : ExprId) :
    items.filterMap Except.toOption =
      (start items nextId).current :: (items.filterMap Except.toOption).tail := by
  have htokens : (start items nextId).tokens = items.filterMap Except.toOption :=
    (pull_spec Token.endOfNothing [] items).1 hended.ne_nil
  rw [← htokens, Cursor.tokens, List.tail_cons]

/-- Bringing the next token into view, unless the first cursor moves past the first token of the
items. -/
theorem InFront.advance (hended : Ended (items.filterMap Except.toOption)) {c d : Cursor}
    (h : InFront items c d) :
    c.advance.pending.length < (items.filterMap Except.toOption).tail.length ∨
      InFront items c.advance d.advance := by
  by_cases hend : c.current.terminal = .endOfInput
  · have hcurrent : d.current = c.current := by cases h <;> rfl
    rw [advance_of_atEnd hend, advance_of_atEnd (hcurrent ▸ hend)]
    exact .inr h
  cases h with
  | @inside current nextId ts =>
    have hat {pending : List Item} : (Cursor.mk current pending nextId []).atEnd = false := by
      simpa [atEnd] using hend
    right
    unfold Cursor.advance
    rw [if_neg (by rw [hat]; exact Bool.false_ne_true), if_neg (by rw [hat]; exact Bool.false_ne_true)]
    cases ts with
    | nil =>
      have hpull := pull_of_ne_nil current Token.endOfNothing [] hended.ne_nil
      simp only [List.nil_append, List.map_nil, hpull]
      rw [tokens_eq hended nextId]
      exact .behind
    | cons t ts => exact .inside ts
  | @behind nextId =>
    have htail : (items.filterMap Except.toOption).tail ≠ [] := by
      have hended' := hended
      rw [tokens_eq hended nextId] at hended'
      exact hended'.tail_ne_nil hend
    left
    obtain ⟨t, ts, hts⟩ := List.exists_cons_of_ne_nil htail
    have hat {pending : List Item} :
        (Cursor.mk (start items nextId).current pending nextId []).atEnd = false := by
      simpa [atEnd] using hend
    unfold Cursor.advance
    rw [if_neg (by rw [hat]; exact Bool.false_ne_true), hts]
    simp [pull]

end Cursor

/-- A text without problems is read as if the tokens among the items were all that follows it. A
cursor that stands behind the first of these tokens, or that noted a problem, is lost. -/
def Lockstep.inFront {items : List Item} (hended : Ended (items.filterMap Except.toOption)) :
    Lockstep where
  transfer := .stay
  Aligned := Cursor.InFront items
  Lost c := c.complaints ≠ [] ∨
    c.pending.length < (items.filterMap Except.toOption).tail.length
  current h := by cases h <;> rfl
  nextId h := by cases h <;> rfl
  advance h := (h.advance hended).imp_left .inr
  note _ _ _ := .inl (.inl (List.cons_ne_nil _ _))
  number h := by
    cases h with
    | inside ts => exact .inside ts
    | behind => exact .behind
  lost_advance {c} h := h.imp
    (fun hc he => hc (List.suffix_nil.mp (he ▸ c.complaints_advance)))
    (Nat.lt_of_le_of_lt c.length_advance)
  lost_note _ _ _ := .inl (List.cons_ne_nil _ _)
  lost_number := id

section

variable {items : List Item} {hended : Ended (items.filterMap Except.toOption)}

/-- Who stands in front of the tokens of the items, stands where the parser would start with them. -/
theorem Cursor.InFront.eq_start {c d : Cursor} (h : Cursor.InFront items c d)
    (hc : c.Faces (items.filterMap Except.toOption)) : d = .start items c.nextId := by
  cases h with
  | inside ts =>
    have hlength := congrArg List.length hc.tokens
    rw [Cursor.tokens, filterMap_map_ok, List.length_cons, List.length_append] at hlength
    omega
  | behind => rfl

theorem Cursor.Faces.not_lost {c : Cursor} {ts : List Token}
    (hc : c.Faces (ts ++ items.filterMap Except.toOption)) : ¬ (Lockstep.inFront hended).Lost c := by
  rintro (hcomplaints | hlt)
  · exact hcomplaints hc.silent
  · have hlength := congrArg List.length hc.tokens
    have hle := List.length_filterMap_le Except.toOption c.pending
    rw [Cursor.tokens, List.length_cons, List.length_append] at hlength
    rw [List.length_tail] at hlt
    omega

theorem Grammar.Declaration.read {ts rest : List Token} {s : Stmt} (h : Grammar.Declaration ts s)
    (hrest : NoElse rest) {n : Nat} {c : Cursor} (hc : c.Faces (ts ++ rest))
    (hn : (ts ++ rest).length < n - 1) :
    ∃ s' c', declaration n c = .ok (some s') c' ∧ s.Same s' ∧ s'.Counted c.nextId c'.nextId ∧
      c'.Faces rest := by
  have haccepts := h.accepted.accepts n hrest c hc
  have hcounts := (counts_declaration n).1 c.nextId c fun _ => rfl
  have hend : c.current.terminal ≠ .endOfInput := by
    obtain ⟨t, us, rfl, ht⟩ := h.begins
    rw [Cursor.Faces.current hc]
    intro he
    rw [he] at ht
    cases ht
  have hdeclares := (declares_declaration n).1 c hc.sound hend (hc.tokens ▸ hn)
  cases hx : declaration n c with
  | ok o c' =>
    obtain ⟨⟨s', rfl, hsame⟩, hc'⟩ := haccepts.ok_of_eq hx
    obtain ⟨-, t, ht, hcounted⟩ := hcounts.ok_of_eq hx hc'.silent
    cases ht
    exact ⟨s', c', rfl, hsame, hcounted, hc'⟩
  | error e c' =>
    have hfuel : e = .outOfFuel := haccepts.halt_of_eq hx
    have hproblem := (hdeclares.halt_of_eq hx).1
    rw [hfuel] at hproblem
    cases hproblem

variable (hended) in
/-- Wherever the tokens stand in front of the items, the trees are read, and the parser goes on where it
would start with the items. -/
def Passed (ts : List Token) (ss : List Stmt) : Prop :=
  ∀ (n room fuel : Nat) (read : Array Stmt) (c d : Cursor),
    (ts ++ items.filterMap Except.toOption).length < n - 1 → ts.length + room ≤ fuel →
      c.Faces (ts ++ items.filterMap Except.toOption) → (Lockstep.inFront hended).Aligned c d →
        ∃ (ss' : List Stmt) (m : ExprId) (fuel' : Nat) (read' : Array Stmt),
          Stmt.unnumberedAll ss' = Stmt.unnumberedAll ss ∧ Stmt.CountedAll c.nextId ss' m ∧
            room ≤ fuel' ∧ read'.toList = read.toList ++ ss' ∧
            declarationsFrom (declaration n) .endOfInput read fuel d =
              declarationsFrom (declaration n) .endOfInput read' fuel' (.start items m)

theorem passed_nil : Passed hended [] [] := by
  intro n room fuel read c d _ hfuel hc hcd
  exact ⟨[], c.nextId, fuel, read, rfl, rfl, by simpa using hfuel, by simp, by rw [hcd.eq_start hc]⟩

theorem passed_cons {ts us : List Token} {s : Stmt} {ss : List Stmt} (hs : Grammar.Declaration ts s)
    (hnoElse : NoElse (us ++ items.filterMap Except.toOption)) (hss : Passed hended us ss) :
    Passed hended (ts ++ us) (s :: ss) := by
  intro n room fuel read c d hn hfuel hc hcd
  rw [List.append_assoc] at hc hn
  obtain ⟨s', c', hx, hsame, hcounted, hc'⟩ := hs.read hnoElse hc hn
  have htracks := (tracks_declaration (L := .inFront hended) (Nat.le_refl n)).1
  obtain hlost | ⟨d', hy, hcd'⟩ := (htracks.aligned c d hcd).ok_of_eq hx
  · exact absurd hlost hc'.not_lost
  obtain ⟨t, vs, hts, ht⟩ := hs.begins
  have hlength : 0 < ts.length := by rw [hts]; exact Nat.succ_pos _
  rw [List.length_append] at hfuel hn
  obtain ⟨fuel, rfl⟩ : ∃ k, fuel = k + 1 := ⟨fuel - 1, by omega⟩
  obtain ⟨ss', m, fuel', read', hunnumbered, hcountedAll, hroom, hread, hrun⟩ :=
    hss n room fuel (read.push s') c' d' (by omega) (by omega) hc' hcd'
  refine ⟨s' :: ss', m, fuel', read', ?_, ?_, hroom, by simp [hread], ?_⟩
  · rw [Stmt.unnumberedAll, Stmt.unnumberedAll, hunnumbered, hsame]
  · exact hcounted.all.append hcountedAll
  · have hterminal : d.current.terminal = t.terminal := by
      rw [(Lockstep.inFront hended).current hcd]
      rw [hts, List.cons_append] at hc
      exact congrArg Token.terminal hc.current
    have hend : t.terminal ≠ .endOfInput := by
      intro he
      rw [he] at ht
      cases ht
    have hgo : goesOnUnless .endOfInput d = .ok true d := by
      show EStateM.Result.ok (d.current.terminal != .endOfInput && d.current.terminal != .endOfInput) d
        = _
      rw [hterminal]
      simp [hend]
    rw [declarationsFrom, bind_of_ok hgo, if_pos rfl, bind_of_ok hy]
    have hstay : (Lockstep.inFront hended).transfer.stmt s' = s' := Transfer.stmt_stay s'
    show declarationsFrom _ _ (read.push ((Lockstep.inFront hended).transfer.stmt s')) fuel d' = _
    rw [hstay]
    exact hrun

/-- **The declarations of a text without problems are passed**, whatever follows them. -/
theorem Grammar.Declarations.passed {ts : List Token} {ss : List Stmt} :
    Grammar.Declarations ts ss → NoElse (items.filterMap Except.toOption) → Passed hended ts ss
  | .nil, _ => passed_nil
  | .cons hs hss, helse => passed_cons hs (hss.noElse_append helse) (hss.passed helse)

end

/-! ## Two texts -/

section

variable {first second : String} {n : ExprId}

theorem scan_after (hclean : (parse first n).clean = true) (second : String) :
    scan (first ++ "\n" ++ second) =
      (tokens first).dropLast.map .ok ++ (scan second).map (Item.relocate (.after first)) := by
  obtain ⟨ts, last, hfirst, hjoin⟩ := scan_behind second (lexed_iff.mp (lexed_of_clean first n hclean))
  have htokens : tokens first = ts ++ [last] := by rw [tokens, hfirst, filterMap_map_ok]
  rw [hjoin, Relocation.after, htokens, List.dropLast_concat, byteLength_toList, List.length_append,
    List.length_singleton, Nat.add_sub_cancel]

theorem enoughFuel_after (hclean : (parse first n).clean = true) (second : String) :
    enoughFuel (scan (first ++ "\n" ++ second)) =
      (tokens first).dropLast.length + enoughFuel (scan second) := by
  rw [enoughFuel, enoughFuel, scan_after hclean second, List.length_append, List.length_map,
    List.length_map, Nat.add_assoc]

theorem inFront_start {ts : List Token} {items : List Item}
    (hended : Ended (items.filterMap Except.toOption)) (n : ExprId) :
    Cursor.InFront items (.start ((ts ++ items.filterMap Except.toOption).map .ok) n)
      (.start (ts.map .ok ++ items) n) := by
  cases ts with
  | nil =>
    rw [List.nil_append, Cursor.tokens_eq hended n]
    exact .behind
  | cons t ts => exact .inside ts

theorem faces_tokens {ts : List Token} (hended : Ended ts) (hspelled : ∀ t ∈ ts, t.Spelled)
    (n : ExprId) : (Cursor.start (ts.map .ok) n).Faces ts := by
  have htokens : (Cursor.start (ts.map .ok) n).tokens = ts := by
    have hpull := (Cursor.pull_spec Token.endOfNothing [] (ts.map .ok)).1
    rw [filterMap_map_ok] at hpull
    exact hpull hended.ne_nil
  refine ⟨⟨by rwa [htokens], by rwa [htokens]⟩, htokens, ?_, ?_⟩
  all_goals obtain ⟨t, us, rfl⟩ := List.exists_cons_of_ne_nil hended.ne_nil
  · intro item hitem
    obtain ⟨u, -, rfl⟩ := List.mem_map.mp hitem
    exact ⟨u, rfl⟩
  · rfl

theorem passed_first (hfirst : (parse first n).clean = true)
    (helse : ∀ t ∈ (tokens second).head?, t.terminal ≠ .keyword .else) :
    ∃ fuel read, enoughFuel (scan second) ≤ fuel ∧ read.toList = (parse first n).tree ∧
      declarations (enoughFuel (scan (first ++ "\n" ++ second)))
          (.start (scan (first ++ "\n" ++ second)) n) =
        declarationsFrom (declaration (enoughFuel (scan (first ++ "\n" ++ second)))) .endOfInput read
          fuel (.start ((scan second).map (Item.relocate (.after first))) (parse first n).nextId) := by
  have hprogram := declarations_of_clean first n hfirst
  rw [enoughFuel_after hfirst second, scan_after hfirst second]
  generalize hitems : (scan second).map (Item.relocate (.after first)) = items
  have hlength : items.length = (scan second).length := by rw [← hitems, List.length_map]
  have htokens : items.filterMap Except.toOption = (tokens second).map (Token.relocate (.after first)) :=
    hitems ▸ filterMap_relocate _ _
  have hended : Ended (items.filterMap Except.toOption) := htokens ▸ (ended_tokens second).relocate _
  have hnoElse : NoElse (items.filterMap Except.toOption) := by
    intro t ht
    rw [htokens, List.head?_map, Option.mem_def, Option.map_eq_some_iff] at ht
    obtain ⟨u, hu, rfl⟩ := ht
    exact helse u hu
  have hface : (Cursor.start (((tokens first).dropLast ++ items.filterMap Except.toOption).map .ok)
      n).Faces ((tokens first).dropLast ++ items.filterMap Except.toOption) := by
    refine faces_tokens ((ended_tokens first).append hended) (fun t ht => ?_) n
    rcases List.mem_append.mp ht with ht | ht
    · exact spelled_tokens first t (List.dropLast_subset _ ht)
    · rw [htokens] at ht
      obtain ⟨u, hu, rfl⟩ := List.mem_map.mp ht
      exact spelled_tokens second u hu
  have hroom : ((tokens first).dropLast ++ items.filterMap Except.toOption).length <
      (tokens first).dropLast.length + enoughFuel (scan second) - 1 := by
    have hle := List.length_filterMap_le Except.toOption items
    rw [List.length_append, enoughFuel]
    omega
  have hpassed : Passed hended _ _ := hprogram.passed hnoElse
  obtain ⟨ss, m, fuel, read, hunnumbered, hcounted, hroom, hread, hrun⟩ :=
    hpassed _ (enoughFuel (scan second)) _ #[] _ _ hroom (Nat.le_refl _) hface
      (inFront_start hended n)
  -- the declarations of the first text have the numbers that they have alone
  obtain ⟨rfl, rfl⟩ : (parse first n).tree = ss ∧ (parse first n).nextId = m := by
    have hparse := counted_parse hfirst
    have hstart : (Cursor.start (((tokens first).dropLast ++ items.filterMap Except.toOption).map .ok)
      n).nextId = n := rfl
    rw [Stmt.CountedAll, ← Stmt.countAll_unnumbered] at hcounted hparse
    rw [hstart, hunnumbered, hparse, Prod.mk.injEq] at hcounted
    exact hcounted
  exact ⟨fuel, read, hroom, by simpa using hread, hrun⟩

/-- **The tree and the complaints of two texts**, the first one without problems and the second
one on the line behind it. In what is of the second text, places are moved on by what stands in
front of it, and numbers by as many as the first text took. -/
theorem parse_append (hfirst : (parse first n).clean = true)
    (helse : ∀ t ∈ (tokens second).head?, t.terminal ≠ .keyword .else) :
    parse (first ++ "\n" ++ second) n =
      ⟨(parse first n).tree ++ Stmt.shiftAll ((parse first n).nextId - n)
          (Stmt.relocateAll (.after first) (parse second n).tree),
        (parse second n).complaints.map (Complaint.relocate (.after first)),
        (parse second n).nextId + ((parse first n).nextId - n)⟩ := by
  obtain ⟨fuel, read, hfuel, hread, hrun⟩ := passed_first hfirst helse
  obtain ⟨d, hsecond, hcomplaints, hnext⟩ := exists_of_parse second n
  have hid : n + ((parse first n).nextId - n) = (parse first n).nextId :=
    Nat.add_sub_cancel' (numbered_parse first n).1
  have hmore : enoughFuel (scan second) ≤ enoughFuel (scan (first ++ "\n" ++ second)) := by
    rw [enoughFuel_after hfirst second]
    exact Nat.le_add_left _ _
  -- behind the first text the second one is read as when it stands alone
  have htracks := tracks_declarationsFrom
    (L := .elsewhere ⟨.after first, (parse first n).nextId - n⟩) (tracks_declaration hmore).1 hfuel
    .endOfInput (parse first n).tree #[] read (by simpa using hread)
  have hbehind := htracks.elsewhere hsecond
  rw [← Cursor.start_transfer _ (ended_tokens second).ne_nil, hid] at hbehind
  rw [parse_of_run _ n (hrun.trans hbehind), ← Transfer.stmts_eq, hcomplaints, hnext,
    List.map_reverse]
  rfl

/-- A loop and behind it a text with two problems. -/
theorem parse_append_broken :
    (parse "var i = 0;\nwhile (i < 3) i = i + 1;" 4).clean = true ∧
      parse ("var i = 0;\nwhile (i < 3) i = i + 1;" ++ "\n" ++ "# print i; var = 1; i();") 4 =
        ⟨(parse "var i = 0;\nwhile (i < 3) i = i + 1;" 4).tree ++
            Stmt.shiftAll ((parse "var i = 0;\nwhile (i < 3) i = i + 1;" 4).nextId - 4)
              (Stmt.relocateAll (.after "var i = 0;\nwhile (i < 3) i = i + 1;")
                (parse "# print i; var = 1; i();" 4).tree),
          (parse "# print i; var = 1; i();" 4).complaints.map
            (Complaint.relocate (.after "var i = 0;\nwhile (i < 3) i = i + 1;")),
          (parse "# print i; var = 1; i();" 4).nextId +
            ((parse "var i = 0;\nwhile (i < 3) i = i + 1;" 4).nextId - 4)⟩ :=
  ⟨by decide +kernel, parse_append (by decide +kernel) (by decide +kernel)⟩

end

end Lox
