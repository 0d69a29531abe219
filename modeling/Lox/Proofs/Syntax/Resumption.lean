import Lox.Proofs.Syntax.Attempts
import Lox.Syntax.Printer

/-!
# Where the parser goes on after a problem

A declaration that is given up at a token is followed by the first statement behind that token. Where it
begins, only two tokens that stand side by side decide: it begins behind a semicolon, in front of one of
the words, or at the end of the text.

* `Boundary`: a statement begins between two tokens, `Resumes`: the first place of a row at which one
  does, `Spares`: none of the words stands in front of it;
* `resumes_of_synchronize`: the parser goes on there;
* **`recovery_resumes`**: whatever was given up in a run, was followed by going on there;
  `break_swallowed`: the words that leave a loop are not among those that count.
-/

namespace Lox

open Lox.Parser

/-- The words in front of which the parser goes on. -/
def boundaryWords : List Keyword := [.class, .fun, .var, .for, .if, .while, .print, .return]

theorem isBoundary_iff {seen : Terminal} :
    isBoundary seen = true ↔ ∃ k ∈ boundaryWords, seen = .keyword k := by
  cases seen with
  | keyword k => cases k <;> simp [isBoundary, boundaryWords]
  | _ => simp [isBoundary]

/-- A statement begins between the two tokens, if the words are those that begin one. -/
def Boundary (words : List Keyword) (before next : Token) : Prop :=
  before.terminal = .punct .semicolon ∨ next.terminal = .endOfInput ∨
    ∃ k ∈ words, next.terminal = .keyword k

/-- A statement begins behind the token with the index `n`. -/
def BoundaryAt (words : List Keyword) (ts : List Token) (n : Nat) : Prop :=
  ∃ before next, ts[n]? = some before ∧ ts[n + 1]? = some next ∧ Boundary words before next

/-- Behind the first token of the row, `rest` begins where the first statement does. -/
def Resumes (words : List Keyword) (ts rest : List Token) : Prop :=
  ∃ n, BoundaryAt words ts n ∧ (∀ m < n, ¬ BoundaryAt words ts m) ∧ rest = ts.drop (n + 1)

/-- Behind the first token of the row, none of the words stands in front of `rest`. -/
def Spares (words : List Keyword) (ts rest : List Token) : Prop :=
  ∃ skipped, ts.tail = skipped ++ rest ∧ ∀ u ∈ skipped, ∀ k ∈ words, u.terminal ≠ .keyword k

/-- No statement that begins with one of the words is passed over. -/
theorem Resumes.spares {words : List Keyword} {t : Token} {ts rest : List Token}
    (h : Resumes words (t :: ts) rest) : Spares words (t :: ts) rest := by
  obtain ⟨n, -, hfirst, rfl⟩ := h
  refine ⟨ts.take n, (List.take_append_drop n ts).symm, fun u hu k hk hword => ?_⟩
  obtain ⟨m, hm, rfl⟩ := List.mem_take_iff_getElem.mp hu
  have hlength : m < ts.length := by omega
  obtain ⟨before, hbefore⟩ : ∃ before, (t :: ts)[m]? = some before :=
    ⟨_, List.getElem?_eq_getElem (Nat.lt_succ_of_lt hlength)⟩
  have hnext : (t :: ts)[m + 1]? = some ts[m] := by
    rw [List.getElem?_cons_succ]
    exact List.getElem?_eq_getElem hlength
  exact hfirst m (by omega) ⟨before, ts[m], hbefore, hnext, .inr (.inr ⟨k, hk, hword⟩)⟩

theorem resumes_here {words : List Keyword} {before next : Token} {ts : List Token}
    (h : Boundary words before next) : Resumes words (before :: next :: ts) (next :: ts) :=
  ⟨0, ⟨before, next, rfl, rfl, h⟩, fun _ hm => by omega, rfl⟩

theorem resumes_later {words : List Keyword} {before next : Token} {ts rest : List Token}
    (hno : ¬ Boundary words before next) (h : Resumes words (next :: ts) rest) :
    Resumes words (before :: next :: ts) rest := by
  obtain ⟨n, hat, hfirst, rfl⟩ := h
  refine ⟨n + 1, hat, fun m hm => ?_, rfl⟩
  cases m with
  | zero =>
    rintro ⟨b, n, hb, hn, hboundary⟩
    obtain rfl := Option.some.inj hb
    obtain rfl := Option.some.inj hn
    exact hno hboundary
  | succ m => exact hfirst m (Nat.lt_of_succ_lt_succ hm)

/-! ## Going on -/

theorem resumes_synchronizeFrom (skipped : Token) (fuel : Nat) {c : Cursor} (hc : c.Sound) :
    Ensures (synchronizeFrom skipped fuel) c
      (fun _ d => Resumes boundaryWords (skipped :: c.tokens) d.tokens) fun _ _ => True := by
  induction fuel generalizing skipped c with
  | zero => trivial
  | succ fuel ih =>
    have hiff : (c.current.terminal == .endOfInput || skipped.terminal == .punct .semicolon ||
        isBoundary c.current.terminal) = true ↔ Boundary boundaryWords skipped c.current := by
      rw [Bool.or_eq_true, Bool.or_eq_true, beq_iff_eq, beq_iff_eq, isBoundary_iff, or_assoc,
        or_left_comm, Boundary]
    rw [synchronizeFrom, ensures_bind, ensures_peek]
    split
    · exact resumes_here (hiff.mp ‹_›)
    · have hno := mt hiff.mpr ‹_›
      have hpass := Cursor.passes_advance hc fun hend => hno (.inr (.inl hend))
      rw [ensures_bind, ensures_advance]
      refine (ih c.current (hpass.leads.sound hc)).mono (fun _ d _ hd => ?_) fun _ _ h => h
      rw [← hpass.tokens] at hd
      exact resumes_later hno hd

/-- **The parser goes on where the first statement begins** behind the token at which it gave up. -/
theorem resumes_of_synchronize {fuel : Nat} {e f : Cursor} (he : e.Sound)
    (hend : e.current.terminal ≠ .endOfInput) (h : synchronize fuel e = .ok () f) :
    Resumes boundaryWords e.tokens f.tokens ∧ Spares boundaryWords e.tokens f.tokens := by
  have hpass := Cursor.passes_advance he hend
  have hskips : Ensures (synchronize fuel) e
      (fun _ f => Resumes boundaryWords (e.current :: e.advance.tokens) f.tokens) fun _ _ => True :=
    resumes_synchronizeFrom e.current fuel (hpass.leads.sound he)
  rw [hpass.tokens]
  have hresumes := hskips.ok_of_eq h
  exact ⟨hresumes, hresumes.spares⟩

/-! ## Whole runs -/

/-- An attempt that was given up at a token goes on where the first statement behind it begins, and
passes none of the words over. -/
def Attempt.Resumed (words : List Keyword) (a : Attempt) : Prop :=
  ∀ e, a.tried = .error .syntaxProblem e → e.current.terminal ≠ .endOfInput →
    ∃ d, a.ended = .ok none d ∧ Resumes words e.tokens d.tokens ∧ Spares words e.tokens d.tokens

/-- The attempt was given up with the problem, at the token at which it is noted, and went on where the
first statement behind that token of the text begins. -/
def Attempt.ResumedFrom (words : List Keyword) (source : String) (x : Complaint) (a : Attempt) : Prop :=
  ∃ e d, a.tried = .error .syntaxProblem e ∧ a.ended = .ok none d ∧ e.complaints.head? = some x ∧
    e.current.position = x.position ∧ e.tokens <:+ tokens source ∧
    (e.current.terminal ≠ .endOfInput →
      Resumes words e.tokens d.tokens ∧ Spares words e.tokens d.tokens)

theorem resumed_attempt {blocks fuel : Nat} {c d : Cursor} {o : Option Stmt} (hc : c.Sound)
    (hrun : declaration (fuel + 1) c = .ok o d) : (Attempt.of blocks fuel c).Resumed boundaryWords := by
  intro e htried hend
  change declarationRule (declaration fuel) (statement fuel) fuel c = _ at htried
  obtain ⟨hd, hs⟩ := keeps_declaration Course.steady_leading fuel
  have hgives := (keeps_declarationRule hd.inside hs fuel c).halt_of_eq htried rfl
  have hleads := hgives.goes Course.steady_leading hc
  have hrecovering := recovering_eq (declarationRule (declaration fuel) (statement fuel) fuel) fuel c
  rw [htried] at hrecovering
  -- going on does not run out of fuel, as the declaration did not
  cases hf : synchronize fuel e with
  | ok u f =>
    exact ⟨f, hrecovering.trans (bind_of_ok hf), resumes_of_synchronize (hleads.1.sound hc) hend hf⟩
  | error h f => cases hrun.symm.trans (hrecovering.trans (bind_of_error hf))

/-- The course on which no declaration is given up with the problem. -/
def Course.without (source : String) (x : Complaint) : Course where
  Goes c d := c.Sound ∧ c.tokens <:+ tokens source ∧ x ∉ c.unwound →
    d.Sound ∧ d.tokens <:+ tokens source ∧ x ∉ d.unwound
  refl _ := id
  trans := fun h h' hc => h' (h hc)
  advance c := fun ⟨hc, hsuffix, hx⟩ =>
    have hleads := Cursor.leads_advance hc
    ⟨hleads.sound hc, hleads.tokens.trans hsuffix, by rwa [c.unwound_advance]⟩
  number _ := fun ⟨hc, hsuffix, hx⟩ => ⟨hc.number _, hsuffix, hx⟩
  note c h := fun ⟨hc, hsuffix, hx⟩ => ⟨hc.note _ _, hsuffix, by rwa [Cursor.unwound_note h]⟩
  target := fun {c d} _ h ⟨hc, hsuffix, hx⟩ =>
    have hleads := Cursor.leads_advance hc
    have ⟨hd, hdsuffix, hdx⟩ := h ⟨hleads.sound hc, hleads.tokens.trans hsuffix, by
      rwa [c.unwound_advance]⟩
    ⟨hd.note _ _, hdsuffix, by rwa [Cursor.unwound_note rfl]⟩

/-- **The parser goes on at the first statement behind what it gave up**: at the end of the text
or the first place behind a semicolon or in front of one of the words, none of which it passes
over. -/
theorem recovery_resumes (source : String) (firstId : ExprId) :
    EveryAttempt source firstId (Attempt.Resumed boundaryWords) ∧
      ∀ x ∈ (parse source firstId).complaints, x.unwinds = true →
        SomeAttempt source firstId (Attempt.ResumedFrom boundaryWords source x) := by
  refine ⟨everyAttempt_of_declaration (fun _ _ _ _ _ hc hrun => resumed_attempt hc hrun) source firstId,
    fun x hx hunwinds hevery => ?_⟩
  -- if no attempt was given up with the problem, it was never noted
  have hkeeps := (keeps_watched (fun a => ¬ a.ResumedFrom boundaryWords source x)
    (fun _ => Course.without source x) (fun _ _ _ _ _ _ h => h) ?_ 0 (enoughFuel (scan source))).1
  · obtain ⟨d, -, hcomplaints, hgoes⟩ := goes_of_keepsInside source firstId hkeeps hevery
    have hstart : x ∉ (Cursor.start (scan source) firstId).unwound := by
      rw [Cursor.unwound_start]
      exact List.not_mem_nil
    refine (hgoes ⟨sound_start source firstId, ⟨[], tokens_start source firstId⟩, hstart⟩).2.2 ?_
    rw [hcomplaints, List.mem_reverse] at hx
    exact List.mem_filter.mpr ⟨hx, hunwinds⟩
  · rintro blocks fuel c e f hallowed - hgives hskips hc
    obtain ⟨d, problem, hgoes, hproblem, rfl⟩ := hgives
    obtain ⟨hd, hsuffix, hdx⟩ := hgoes hc
    have hsound := hd.note problem d.current.position
    refine (Course.without source x).trans ((Course.without source x).advance _)
      (goes_of_synchronize hskips) ⟨hsound, hsuffix, ?_⟩
    rw [Cursor.unwound_giveUp hproblem, List.mem_cons, not_or]
    refine ⟨fun hxd => hallowed ⟨_, f, rfl, rfl, ?_, ?_, hsuffix, fun hend => ?_⟩, hdx⟩
    · rw [hxd]
      rfl
    · rw [hxd]
      rfl
    · exact resumes_of_synchronize hsound hend hskips

/-- What begins with a word that leaves a loop is passed over: behind the problem at the second `nil`,
only the last statement is read. -/
theorem break_swallowed :
    ((parse "nil nil break; print nil;" 0).complaints.map fun x => (x.unwinds, x.position.start)) =
        [(true, 4)] ∧
      (tokens "nil nil break; print nil;").map Token.terminal =
        [.keyword .nil, .keyword .nil, .keyword .break, .punct .semicolon, .keyword .print,
          .keyword .nil, .punct .semicolon, .endOfInput] ∧
      (parse "nil nil break; print nil;" 0).tree.map Stmt.text = ["(print nil)"] := by
  decide +kernel

end Lox
