import Lox.Proofs.Syntax.Beyond
import Lox.Proofs.Syntax.Course

/-!
# The attempts of a run

A row of declarations, that of a text or that of a block in it, is read in rounds. Each round is an
attempt at one declaration: its rule is tried, and after a problem the parser goes on at the front of the
next statement. What holds of all attempts of a run is said by watching it: a watched run stops early as
soon as an attempt does not have the property, so that to watch makes no difference exactly if every
attempt has it.

* `Attempt`: where an attempt starts, what its rule did and what it came to;
* `watchedDeclarations`: the rule for whole texts, watched;
* `EveryAttempt`, `SomeAttempt`: what holds of the attempts of the run on a text;
* **`everyAttempt_of_declaration`**: what holds wherever a declaration is read, holds of every attempt;
* `everyAttempt_of_blocks`: attempts stand only in so many blocks;
* **`keeps_watched`**: what one attempt does to the way of the parser, all of them do in a run;
* `goes_parse`, `goes_parseExpression`: the way through a whole text.
-/

namespace Lox

open Lox.Parser

/-- An attempt at a declaration. -/
structure Attempt where
  /-- How many blocks it stands in. -/
  blocks : Nat
  start : Cursor
  /-- What its rule did. -/
  tried : EStateM.Result Halt Cursor Stmt
  /-- What it came to, with going on after a problem. -/
  ended : EStateM.Result Halt Cursor (Option Stmt)

namespace Parser

open Classical in
/-- An attempt that is not allowed stops the run. -/
noncomputable def attempt (allowed : Attempt → Prop) (blocks fuel : Nat) (rule : Parser Stmt) :
    Parser (Option Stmt) := fun c =>
  if allowed ⟨blocks, c, rule c, recovering rule fuel c⟩ then recovering rule fuel c
  else .error .outOfFuel c

mutual

/-- A declaration in so many blocks, watched. -/
noncomputable def watchedDeclaration (allowed : Attempt → Prop) : Nat → Nat → Parser (Option Stmt)
  | _, 0 => outOfFuel
  | blocks, fuel + 1 => attempt allowed blocks fuel
      (declarationRule (watchedDeclaration allowed (blocks + 1) fuel)
        (watchedStatement allowed blocks fuel) fuel)

/-- A statement in so many blocks, watched. -/
noncomputable def watchedStatement (allowed : Attempt → Prop) : Nat → Nat → Parser Stmt
  | _, 0 => outOfFuel
  | blocks, fuel + 1 => statementRule (watchedDeclaration allowed (blocks + 1) fuel)
      (watchedStatement allowed blocks fuel) fuel

end

/-- The declarations of a whole text, watched. -/
noncomputable def watchedDeclarations (allowed : Attempt → Prop) (fuel : Nat) : Parser (List Stmt) :=
  declarationsFrom (watchedDeclaration allowed 0 fuel) .endOfInput #[] fuel

end Parser

/-- Every attempt of the run on the text is allowed. -/
def EveryAttempt (source : String) (firstId : ExprId) (allowed : Attempt → Prop) : Prop :=
  watchedDeclarations allowed (enoughFuel (scan source)) (.start (scan source) firstId) =
    declarations (enoughFuel (scan source)) (.start (scan source) firstId)

/-- Some attempt of the run on the text has the property. -/
def SomeAttempt (source : String) (firstId : ExprId) (property : Attempt → Prop) : Prop :=
  ¬ EveryAttempt source firstId fun a => ¬ property a

variable {allowed : Attempt → Prop}

theorem attempt_of_allowed {blocks fuel : Nat} {rule : Parser Stmt} {c : Cursor}
    (h : allowed ⟨blocks, c, rule c, recovering rule fuel c⟩) :
    attempt allowed blocks fuel rule c = recovering rule fuel c := if_pos h

theorem attempt_of_not_allowed {blocks fuel : Nat} {rule : Parser Stmt} {c : Cursor}
    (h : ¬ allowed ⟨blocks, c, rule c, recovering rule fuel c⟩) :
    attempt allowed blocks fuel rule c = .error .outOfFuel c := if_neg h

/-! ## What holds wherever a declaration is read -/

/-- The attempt of the rule for declarations in so many blocks. -/
def Attempt.of (blocks fuel : Nat) (c : Cursor) : Attempt :=
  ⟨blocks, c, declarationRule (declaration fuel) (statement fuel) fuel c, declaration (fuel + 1) c⟩

/-- A watched rule does what the rule does as long as all its attempts are allowed. -/
theorem tracks_watched (h : ∀ blocks fuel c o d, c.Sound → declaration (fuel + 1) c = .ok o d →
    allowed (.of blocks fuel c)) (blocks fuel : Nat) :
    TracksDeclaration (.beyond []) (declaration fuel) (watchedDeclaration allowed blocks fuel) ∧
      TracksStmt (.beyond []) (statement fuel) (watchedStatement allowed blocks fuel) := by
  induction fuel generalizing blocks with
  | zero => exact ⟨.outOfFuel, .outOfFuel⟩
  | succ fuel ih =>
    have hd := (ih (blocks + 1)).1
    have hs := (ih blocks).2
    have hle := Nat.le_refl fuel
    rw [watchedDeclaration, watchedStatement]
    have hrule := tracks_declarationRule hd hs hle
    have hrecovering := tracks_recovering hrule hle
    refine ⟨⟨fun _ hlost => hlost.elim, fun c d hcd => ?_⟩, tracks_statementRule hd hs hle⟩
    have haligned := hrecovering.aligned c d hcd
    obtain ⟨hc, rfl⟩ := hcd
    rw [Cursor.before_nil] at haligned ⊢
    rw [Ensures, declaration]
    cases hx : recovering (declarationRule (declaration fuel) (statement fuel) fuel) fuel c with
    | error halt e =>
      have hfuel : halt = .outOfFuel := (ensures_declaration_recovers (fuel + 1) c).halt_of_eq hx
      rw [hfuel]
      rintro ⟨⟩
    | ok o e =>
      -- the watched rule does the same, so that its attempt is allowed
      have hended := hrecovering.same Transfer.map_stmt_stay hc (by simp [hx])
      have htried := hrule.same Transfer.stmt_stay hc fun e he => by
        have hout := recovering_eq (declarationRule (declaration fuel) (statement fuel) fuel) fuel c
        rw [hx, he] at hout
        cases hout
      have hallowed := h blocks fuel c o e hc hx
      rw [attempt_of_allowed (by rw [hended, htried]; exact hallowed)]
      exact haligned.ok_of_eq hx

/-- **What holds wherever a declaration is read, holds of every attempt.** -/
theorem everyAttempt_of_declaration (h : ∀ blocks fuel c o d, c.Sound →
    declaration (fuel + 1) c = .ok o d → allowed (.of blocks fuel c)) (source : String)
    (firstId : ExprId) : EveryAttempt source firstId allowed := by
  have hle := Nat.le_refl (enoughFuel (scan source))
  have htracks := tracks_declarationsFrom (tracks_watched h 0 (enoughFuel (scan source))).1 hle
    .endOfInput [] #[] #[] rfl
  refine htracks.same (fun ss => ?_) (sound_start source firstId) fun d hd => ?_
  · rw [List.nil_append]
    exact Transfer.stmts_stay ss
  · obtain ⟨e, hrun, -⟩ := exists_of_parse source firstId
    cases hrun.symm.trans hd

/-! ## How deep attempts stand -/

theorem watched_of_blocks (blocks fuel : Nat)
    (h : ∀ a : Attempt, a.blocks < blocks + fuel → allowed a) :
    watchedDeclaration allowed blocks fuel = declaration fuel ∧
      watchedStatement allowed blocks fuel = statement fuel := by
  induction fuel generalizing blocks with
  | zero => exact ⟨rfl, rfl⟩
  | succ fuel ih =>
    obtain ⟨hd, -⟩ := ih (blocks + 1) fun a ha => h a (by omega)
    obtain ⟨-, hs⟩ := ih blocks fun a ha => h a (by omega)
    rw [watchedDeclaration, watchedStatement, declaration, statement, hd, hs]
    exact ⟨funext fun c => attempt_of_allowed (h _ (by show blocks < _; omega)), rfl⟩

/-- Attempts stand in fewer blocks than the bound on the depth of the tree. -/
theorem everyAttempt_of_blocks {source : String} (firstId : ExprId)
    (h : ∀ a : Attempt, a.blocks < enoughFuel (scan source) → allowed a) :
    EveryAttempt source firstId allowed := by
  have hd := (watched_of_blocks 0 (enoughFuel (scan source)) fun a ha => h a (by omega)).1
  rw [EveryAttempt, watchedDeclarations, hd, declarations]

/-! ## The way of a run -/

section Courses

variable (allowed) in
/-- **What one attempt does to the way of the parser, all of them do in a run.** Within an attempt
the way is on the course of its nested blocks. -/
theorem keeps_watched (courses : Nat → Course)
    (hkeep : ∀ blocks (c d : Cursor) s, allowed ⟨blocks, c, .ok s d, .ok (some s) d⟩ →
      c.current.terminal ≠ .endOfInput → (courses (blocks + 1)).Goes c d → (courses blocks).Goes c d)
    (hresume : ∀ blocks fuel (c e f : Cursor),
      allowed ⟨blocks, c, .error .syntaxProblem e, .ok none f⟩ → c.current.terminal ≠ .endOfInput →
      (courses (blocks + 1)).GivesUp c e → synchronize fuel e = .ok () f → (courses blocks).Goes c f)
    (blocks fuel : Nat) :
    (courses blocks).KeepsInside (watchedDeclaration allowed blocks fuel) ∧
      (courses (blocks + 1)).Keeps (watchedStatement allowed blocks fuel) := by
  induction fuel generalizing blocks with
  | zero => exact ⟨Course.Keeps.outOfFuel.inside, .outOfFuel⟩
  | succ fuel ih =>
    have hd := (ih (blocks + 1)).1
    have hs := (ih blocks).2
    rw [watchedDeclaration, watchedStatement]
    refine ⟨fun c hc => ?_, keeps_statementRule hd hs fuel⟩
    have hrule := keeps_declarationRule hd hs fuel c
    generalize declarationRule (watchedDeclaration allowed (blocks + 1) fuel)
      (watchedStatement allowed blocks fuel) fuel = rule at hrule ⊢
    by_cases hallowed : allowed ⟨blocks, c, rule c, recovering rule fuel c⟩
    · rw [Course.KeepsAt, ensures_congr (attempt_of_allowed hallowed)]
      refine keepsAt_recovering (fun s d htried hended => ?_) fun e f htried hended hskips => ?_
      · rw [htried, hended] at hallowed
        exact hkeep blocks c d s hallowed hc (hrule.ok_of_eq htried)
      · rw [htried, hended] at hallowed
        exact hresume blocks fuel c e f hallowed hc (hrule.halt_of_eq htried rfl) hskips
    · rw [Course.KeepsAt, Ensures, attempt_of_not_allowed hallowed]
      rintro ⟨⟩

variable (source : String) (firstId : ExprId)

/-- The way through a whole text is on every course that its attempts keep. -/
theorem goes_of_keepsInside {C : Course}
    (h : C.KeepsInside (watchedDeclaration allowed 0 (enoughFuel (scan source))))
    (hevery : EveryAttempt source firstId allowed) :
    ∃ d, declarations (enoughFuel (scan source)) (.start (scan source) firstId) =
        .ok (parse source firstId).tree d ∧
      (parse source firstId).complaints = d.complaints.reverse ∧
      C.Goes (.start (scan source) firstId) d := by
  obtain ⟨d, hrun, hcomplaints, -⟩ := exists_of_parse source firstId
  exact ⟨d, hrun, hcomplaints, (keeps_declarationsFrom h _ _ _ _).ok_of_eq (hevery.trans hrun)⟩

theorem goes_parse {C : Course} (hC : C.Steady) :
    ∃ d, declarations (enoughFuel (scan source)) (.start (scan source) firstId) =
        .ok (parse source firstId).tree d ∧
      (parse source firstId).complaints = d.complaints.reverse ∧
      C.Goes (.start (scan source) firstId) d := by
  obtain ⟨d, hrun, hcomplaints, -⟩ := exists_of_parse source firstId
  exact ⟨d, hrun, hcomplaints,
    (keeps_declarationsFrom (keeps_declaration hC _).1.inside _ _ _ _).ok_of_eq hrun⟩

theorem goes_parseExpression (C : Course) : ∃ d,
    (parseExpression source firstId).complaints = d.complaints.reverse ∧
      (C.Goes (.start (scan source) firstId) d ∨ C.GivesUp (.start (scan source) firstId) d) := by
  have hkeeps : C.KeepsAt (wholeExpression (enoughFuel (scan source))) (.start (scan source) firstId) :=
    keeps_wholeExpression _ _
  have hreads := ensures_parseExpression source firstId
  unfold parseExpression Parser.run
  cases hx : wholeExpression (enoughFuel (scan source)) (.start (scan source) firstId) with
  | ok tree d => exact ⟨d, rfl, .inl (hkeeps.ok_of_eq hx)⟩
  | error e d => exact ⟨d, rfl, .inr (hkeeps.halt_of_eq hx (hreads.halt_of_eq hx).1)⟩

end Courses

end Lox
