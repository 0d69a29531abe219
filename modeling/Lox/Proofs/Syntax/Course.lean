import Lox.Proofs.Syntax.ReadStatement
import Lox.Syntax.Program

/-!
# Courses of the parser

What holds between two points of a run of the parser, whatever problems it meets on the way, is proved
for each of its steps once. The steps are few: a token is passed, a number is given away, and a problem
is noted. A problem that unwinds is noted at the token in view and ends the rule at hand, and most of
the others are noted there, too. Only an invalid target of an assignment is noted at a token that was
passed before.

* `Course`: a kind of way between cursors, made of such steps, `Course.GivesUp`: the way of a rule that
  is given up;
* `Course.Keeps`: wherever a rule starts, its way is on the course;
* `keeps_expression`, `keeps_declarationRule`, …: the rules of the grammar keep every course, if the
  rules for nested declarations do; **`keeps_declaration`**: they do so if the course is steady;
* `Course.leading`: the course from sound cursors to sound ones;
* `Cursor.unwound`: the problems with which declarations were given up.
-/

namespace Lox

open Lox.Parser

/-- A kind of way between cursors that is made of the steps of the parser. -/
structure Course where
  Goes : Cursor → Cursor → Prop
  refl (c : Cursor) : Goes c c
  trans {c d e : Cursor} : Goes c d → Goes d e → Goes c e
  advance (c : Cursor) : Goes c c.advance
  number (c : Cursor) : Goes c { c with nextId := c.nextId + 1 }
  /-- A problem that does not unwind is noted at the token in view. -/
  note {problem : SyntaxProblem} (c : Cursor) : problem.unwinds = false →
    Goes c (c.note problem c.current.position)
  /-- An invalid target is noted at the sign of the assignment, behind its value. -/
  target {c d : Cursor} : c.current.terminal = .punct .equal → Goes c.advance d →
    Goes c (d.note .invalidTarget c.current.position)

namespace Course

/-- The way of a rule that is given up ends with a problem at the token in view. -/
def GivesUp (C : Course) (c e : Cursor) : Prop :=
  ∃ d problem, C.Goes c d ∧ problem.unwinds = true ∧ e = d.note problem d.current.position

/-- From `c` the way of the rule is on the course. Nothing is said of a rule that runs out of fuel. -/
def KeepsAt {α : Type} (C : Course) (x : Parser α) (c : Cursor) : Prop :=
  Ensures x c (fun _ d => C.Goes c d) fun h d => h = .syntaxProblem → C.GivesUp c d

/-- Wherever the rule starts, its way is on the course. -/
def Keeps {α : Type} (C : Course) (x : Parser α) : Prop := ∀ c, C.KeepsAt x c

/-- Wherever the rule starts in front of the end of the text, its way is on the course. -/
def KeepsInside {α : Type} (C : Course) (x : Parser α) : Prop :=
  ∀ c : Cursor, c.current.terminal ≠ .endOfInput → C.KeepsAt x c

variable {C : Course} {α β : Type} {x : Parser α} {c d e : Cursor}

/-- The course goes on through every problem that is noted at the token in view. -/
def Steady (C : Course) : Prop :=
  ∀ (problem : SyntaxProblem) (c : Cursor), C.Goes c (c.note problem c.current.position)

theorem GivesUp.of_goes (h : C.Goes c d) (h' : C.GivesUp d e) : C.GivesUp c e := by
  obtain ⟨d', problem, hgoes, hunwinds, rfl⟩ := h'
  exact ⟨d', problem, C.trans h hgoes, hunwinds, rfl⟩

/-- What is given up is on the course, too, if it is steady. -/
theorem GivesUp.goes (hC : C.Steady) (h : C.GivesUp c e) : C.Goes c e := by
  obtain ⟨d, problem, hgoes, -, rfl⟩ := h
  exact C.trans hgoes (hC problem d)

theorem KeepsAt.bind {f : α → Parser β} (hx : C.KeepsAt x c)
    (hf : ∀ a d, x c = .ok a d → C.Goes c d → Ensures (f a) d (fun _ e => C.Goes c e)
      fun h e => h = .syntaxProblem → C.GivesUp c e) : C.KeepsAt (x >>= f) c :=
  Ensures.bind hx hf fun _ _ h => h

theorem KeepsAt.behind (hx : C.KeepsAt x d) (h : C.Goes c d) :
    Ensures x d (fun _ e => C.Goes c e) fun h e => h = .syntaxProblem → C.GivesUp c e :=
  hx.mono (fun _ _ _ he => C.trans h he) fun _ _ he hh => (he hh).of_goes h

namespace Keeps

theorem inside (hx : C.Keeps x) : C.KeepsInside x := fun c _ => hx c

theorem bind {f : α → Parser β} (hx : C.Keeps x) (hf : ∀ a, C.Keeps (f a)) : C.Keeps (x >>= f) :=
  fun c => (hx c).bind fun a d _ h => (hf a d).behind h

theorem pure (a : α) : C.Keeps (Pure.pure a : Parser α) := fun c => C.refl c

theorem map (f : α → β) (hx : C.Keeps x) : C.Keeps (f <$> x) := hx.bind fun a => .pure (f a)

theorem ite {p : Prop} [Decidable p] {y : Parser α} (hx : C.Keeps x) (hy : C.Keeps y) :
    C.Keeps (if p then x else y) := by
  split
  · exact hx
  · exact hy

theorem get {f : Cursor → Parser α} (h : ∀ c, C.Keeps (f c)) : C.Keeps (MonadState.get >>= f) :=
  fun c => h c c

theorem peek {f : Terminal → Parser α} (h : ∀ seen, C.Keeps (f seen)) :
    C.Keeps (Parser.peek >>= f) :=
  get fun c => h c.current.terminal

theorem outOfFuel : C.Keeps (Parser.outOfFuel : Parser α) := fun _ h => by cases h

theorem pass {f : Token → Parser α} (h : ∀ t, C.Keeps (f t)) : C.Keeps (Parser.advance >>= f) :=
  bind C.advance h

theorem freshId {f : ExprId → Parser α} (h : ∀ id, C.Keeps (f id)) :
    C.Keeps (Parser.freshId >>= f) :=
  bind C.number h

theorem fail {problem : SyntaxProblem} (h : problem.unwinds = true) :
    C.Keeps (Parser.fail problem : Parser α) :=
  fun c _ => ⟨c, problem, C.refl c, h, rfl⟩

theorem complain {problem : SyntaxProblem} (h : problem.unwinds = false) (hx : C.Keeps x) :
    C.Keeps (do Parser.complain problem (← MonadState.get).current; x) :=
  fun c => (hx _).behind (C.note c h)

theorem limited {p : Prop} [Decidable p] {problem : SyntaxProblem} (h : problem.unwinds = false)
    (hx : C.Keeps x) :
    C.Keeps (if p then do Parser.complain problem (← MonadState.get).current; x else x) :=
  .ite (.complain h hx) hx

theorem accept? (terminal : Terminal) {f : Option Token → Parser α} (hnone : C.Keeps (f none))
    (hsome : ∀ t, C.Keeps (f (some t))) : C.Keeps (Parser.accept? terminal >>= f) :=
  have haccept : C.Keeps (Parser.accept? terminal) :=
    peek fun _ => .ite (pass fun t => .pure (some t)) (.pure none)
  haccept.bind fun o => by
    cases o with
    | none => exact hnone
    | some t => exact hsome t

theorem expect {terminal : Terminal} {problem : SyntaxProblem} (hp : problem.unwinds = true)
    {f : Token → Parser α} (h : ∀ t, C.Keeps (f t)) :
    C.Keeps (Parser.expect terminal problem >>= f) :=
  have hexpect : C.Keeps (Parser.expect terminal problem) := accept? terminal (fail hp) .pure
  hexpect.bind h

theorem expectMark {mark : Punct} {place : Place} {f : Token → Parser α} (h : ∀ t, C.Keeps (f t)) :
    C.Keeps (Parser.expectMark mark place >>= f) :=
  expect rfl h

theorem expectName {named : Named} {f : Token → Parser α} (h : ∀ t, C.Keeps (f t)) :
    C.Keeps (Parser.expectName named >>= f) :=
  expect rfl h

theorem goesOnUnless {last : Terminal} {y : Parser α} (hx : C.KeepsInside x) (hy : C.Keeps y) :
    C.Keeps (do if ← Parser.goesOnUnless last then x else y) := fun c => by
  show Ensures (Parser.goesOnUnless last >>= fun go => if go = true then x else y) c _ _
  rw [ensures_bind, ensures_goesOnUnless]
  split
  · rename_i hgo
    have hend : c.current.terminal ≠ .endOfInput := by
      simp only [Bool.and_eq_true, bne_iff_ne] at hgo
      exact hgo.2
    exact hx c hend
  · exact hy c

end Keeps

theorem KeepsInside.bind {f : α → Parser β} (hx : C.KeepsInside x) (hf : ∀ a, C.Keeps (f a)) :
    C.KeepsInside (x >>= f) :=
  fun c hc => (hx c hc).bind fun a d _ h => (hf a d).behind h

end Course

open Course

variable {C : Course}

/-! ## Expressions -/

section Expressions

theorem keeps_chainFrom (level : Level) {operand : Parser Expr} (ho : C.Keeps operand) (left : Expr)
    (fuel : Nat) : C.Keeps (chainFrom level operand left fuel) := by
  induction fuel generalizing left with
  | zero => exact .outOfFuel
  | succ fuel ih =>
    refine .peek fun seen => ?_
    split
    · exact .pure _
    · exact .pass fun operator => ho.bind fun right => ih _

theorem keeps_chain (level : Level) {operand : Parser Expr} (ho : C.Keeps operand) (fuel : Nat) :
    C.Keeps (chain level operand fuel) :=
  ho.bind fun left => keeps_chainFrom level ho left fuel

variable {nested : Parser Expr} (hn : C.Keeps nested)

include hn

theorem keeps_argumentsFrom (read : Array Expr) (fuel : Nat) :
    C.Keeps (argumentsFrom nested read fuel) := by
  induction fuel generalizing read with
  | zero => exact .outOfFuel
  | succ fuel ih =>
    rw [argumentsFrom]
    exact .limited rfl (hn.bind fun argument => .accept? _ (.pure _) fun _ => ih _)

theorem keeps_arguments (fuel : Nat) : C.Keeps (arguments nested fuel) := by
  have hclose (read : List Expr) : C.Keeps (do
      let paren ← expectMark .rightParen .afterArguments
      return (read, paren)) :=
    .expectMark fun paren => .pure (read, paren)
  refine .peek fun seen => ?_
  split
  · exact hclose []
  · exact (keeps_argumentsFrom hn #[] fuel).bind hclose

theorem keeps_primary : C.Keeps (primary nested) := by
  refine .get fun c => ?_
  split
  · exact .pass fun _ => .pure _
  · exact .pass fun _ => .pure _
  · exact .pass fun _ => .pure _
  · exact .pass fun _ => .pure _
  · exact .pass fun _ => .pure _
  · exact .pass fun _ => .freshId fun _ => .pure _
  · exact .pass fun _ => .freshId fun _ => .pure _
  · exact .pass fun _ => .expectMark fun _ => .expectName fun _ => .freshId fun _ => .pure _
  · exact .pass fun _ => hn.bind fun _ => .expectMark fun _ => .pure _
  · exact .fail rfl

theorem keeps_callFrom (callee : Expr) (fuel : Nat) : C.Keeps (callFrom nested callee fuel) := by
  induction fuel generalizing callee with
  | zero => exact .outOfFuel
  | succ fuel ih =>
    refine .peek fun seen => ?_
    split
    · exact .pass fun _ => (keeps_arguments hn fuel).bind fun r => ih _
    · exact .pass fun _ => .expect rfl fun name => ih _
    · exact .pure _

theorem keeps_unary (fuel : Nat) : C.Keeps (unary nested fuel) := by
  induction fuel with
  | zero => exact .outOfFuel
  | succ fuel ih =>
    refine .peek fun seen => ?_
    split
    · exact .pass fun _ => ih.bind fun _ => .pure _
    · exact (keeps_primary hn).bind fun callee => keeps_callFrom hn callee fuel

theorem keeps_disjunction (fuel : Nat) : C.Keeps (disjunction nested fuel) :=
  keeps_chain _ (keeps_chain _ (keeps_chain _ (keeps_chain _ (keeps_chain _ (keeps_chain _
    (keeps_unary hn fuel) fuel) fuel) fuel) fuel) fuel) fuel

omit hn in
theorem goes_assignTo {c d : Cursor} (hsign : c.current.terminal = .punct .equal)
    (h : C.Goes c.advance d) (target value : Expr) :
    Ensures (assignTo target c.current value) d (fun _ e => C.Goes c e)
      fun h e => h = .syntaxProblem → C.GivesUp c e := by
  have hd := C.trans (C.advance c) h
  cases target with
  | «variable» use => exact C.trans hd (C.number d)
  | get object name => exact hd
  | _ => exact C.target hsign h

theorem keeps_assignment (fuel : Nat) : C.Keeps (assignment nested fuel) := by
  refine (keeps_disjunction hn fuel).bind fun target => fun c => ?_
  show Ensures (accept? (.punct .equal) >>= _) c _ _
  rw [ensures_bind, accept?, ensures_bind, ensures_peek]
  split
  · rename_i hsign
    rw [beq_iff_eq] at hsign
    show Ensures (nested >>= fun value => assignTo target c.current value) c.advance _ _
    refine Ensures.bind (hn c.advance) (fun value d _ h => goes_assignTo hsign h target value) ?_
    exact fun _ _ h hh => (h hh).of_goes (C.advance c)
  · exact C.refl c

omit hn in
/-- **The rule for expressions keeps every course.** -/
theorem keeps_expression (fuel : Nat) : C.Keeps (expression fuel) := by
  induction fuel with
  | zero => exact .outOfFuel
  | succ fuel ih => exact keeps_assignment ih fuel

end Expressions

/-! ## Declarations -/

section Nested

variable {declaration : Parser (Option Stmt)} (hd : C.KeepsInside declaration)
variable {statement : Parser Stmt} (hs : C.Keeps statement)

section Declarations

include hd

theorem keeps_declarationsFrom (last : Terminal) (read : Array Stmt) (fuel : Nat) :
    C.Keeps (declarationsFrom declaration last read fuel) := by
  induction fuel generalizing read with
  | zero => exact .outOfFuel
  | succ fuel ih =>
    refine .goesOnUnless (hd.bind fun o => ?_) (.pure _)
    cases o with
    | none => exact ih read
    | some s => exact ih _

theorem keeps_block (fuel : Nat) : C.Keeps (block declaration fuel) :=
  (keeps_declarationsFrom hd _ _ fuel).bind fun _ => .expectMark fun _ => .pure _

omit hd in
theorem keeps_parametersFrom (read : Array Token) (fuel : Nat) :
    C.Keeps (parametersFrom read fuel) := by
  induction fuel generalizing read with
  | zero => exact .outOfFuel
  | succ fuel ih =>
    rw [parametersFrom]
    exact .limited rfl (.expectName fun parameter => .accept? _ (.pure _) fun _ => ih _)

theorem keeps_function (form : FunctionForm) (first : Token) (fuel : Nat) :
    C.Keeps (function declaration form first fuel) := by
  refine .expectName fun name => .expectMark fun _ => .peek fun seen => ?_
  have hbody (params : List Token) : C.Keeps (do
      let _ ← expectMark .rightParen .afterParameters
      let _ ← expectMark .leftBrace (.beforeFunctionBody form)
      let r ← block declaration fuel
      return (⟨name, params, r.1, spanFrom first r.2⟩ : Function)) :=
    .expectMark fun _ => .expectMark fun _ => (keeps_block hd fuel).bind fun _ => .pure _
  split
  · exact hbody []
  · exact (keeps_parametersFrom #[] fuel).bind hbody

theorem keeps_methodsFrom (read : Array Function) (fuel : Nat) :
    C.Keeps (methodsFrom declaration read fuel) := by
  induction fuel generalizing read with
  | zero => exact .outOfFuel
  | succ fuel ih =>
    refine .goesOnUnless (Keeps.inside ?_) (.pure _)
    exact .get fun c => (keeps_function hd .method c.current fuel).bind fun method => ih _

omit hd in
theorem keeps_superclass? : C.Keeps superclass? :=
  .accept? _ (.pure _) fun _ => .expectName fun _ => .freshId fun _ => .pure _

theorem keeps_classDeclaration (keyword : Token) (fuel : Nat) :
    C.Keeps (classDeclaration declaration keyword fuel) :=
  .expectName fun _ => keeps_superclass?.bind fun _ => .expectMark fun _ =>
    (keeps_methodsFrom hd #[] fuel).bind fun _ => .expectMark fun _ => .pure _

end Declarations

theorem keeps_varDeclaration (fuel : Nat) : C.Keeps (varDeclaration fuel) := by
  have hclose (name : Token) (initializer : Option Expr) : C.Keeps (do
      let _ ← expectMark .semicolon .afterVariableDeclaration
      return Stmt.var name initializer) :=
    .expectMark fun _ => .pure _
  refine .expectName fun name => .accept? _ (hclose name none) fun _ => ?_
  exact (Keeps.map some (keeps_expression fuel)).bind (hclose name)

/-! ## Statements -/

theorem keeps_expressionStatement (fuel : Nat) : C.Keeps (expressionStatement fuel) :=
  (keeps_expression fuel).bind fun _ => .expectMark fun _ => .pure _

theorem keeps_optionalExpression (stop : Punct) (fuel : Nat) :
    C.Keeps (optionalExpression stop fuel) :=
  .peek fun _ => .ite (.pure _) (.map some (keeps_expression fuel))

theorem keeps_forInitializer (fuel : Nat) : C.Keeps (forInitializer fuel) := by
  refine .peek fun seen => ?_
  split
  · exact .pass fun _ => .pure _
  · exact .pass fun _ => .map some (keeps_varDeclaration fuel)
  · exact .map some (keeps_expressionStatement fuel)

theorem keeps_returnStatement (keyword : Token) (fuel : Nat) :
    C.Keeps (returnStatement keyword fuel) :=
  (keeps_optionalExpression _ fuel).bind fun _ => .expectMark fun _ => .pure _

theorem keeps_printStatement (fuel : Nat) : C.Keeps (printStatement fuel) :=
  (keeps_expression fuel).bind fun _ => .expectMark fun _ => .pure _

section Statements

include hs

theorem keeps_forStatement (fuel : Nat) : C.Keeps (forStatement statement fuel) :=
  .expectMark fun _ => (keeps_forInitializer fuel).bind fun _ =>
    (keeps_optionalExpression _ fuel).bind fun _ => .expectMark fun _ =>
    (keeps_optionalExpression _ fuel).bind fun _ => .expectMark fun _ => hs.bind fun _ => .pure _

theorem keeps_ifStatement (fuel : Nat) : C.Keeps (ifStatement statement fuel) :=
  .expectMark fun _ => (keeps_expression fuel).bind fun _ => .expectMark fun _ =>
    hs.bind fun _ => .accept? _ (.pure _) fun _ => hs.bind fun _ => .pure _

theorem keeps_whileStatement (fuel : Nat) : C.Keeps (whileStatement statement fuel) :=
  .expectMark fun _ => (keeps_expression fuel).bind fun _ => .expectMark fun _ =>
    hs.bind fun _ => .pure _

include hd

/-- **The rule for statements keeps every course** that the rules for nested declarations and
statements keep. -/
theorem keeps_statementRule (fuel : Nat) : C.Keeps (statementRule declaration statement fuel) := by
  refine .peek fun seen => ?_
  split
  · exact .pass fun _ => keeps_forStatement hs fuel
  · exact .pass fun _ => keeps_ifStatement hs fuel
  · exact .pass fun _ => keeps_whileStatement hs fuel
  · exact .pass fun keyword => keeps_returnStatement keyword fuel
  · exact .pass fun _ => .expectMark fun _ => .pure _
  · exact .pass fun _ => .expectMark fun _ => .pure _
  · exact .pass fun _ => (keeps_block hd fuel).bind fun _ => .pure _
  · exact .pass fun _ => keeps_printStatement fuel
  · exact keeps_expressionStatement fuel

/-- **The rule for declarations keeps every course** that the rules for nested declarations and
statements keep. -/
theorem keeps_declarationRule (fuel : Nat) :
    C.Keeps (declarationRule declaration statement fuel) := by
  refine .peek fun seen => ?_
  split
  · exact .pass fun keyword => keeps_classDeclaration hd keyword fuel
  · exact .pass fun keyword => (keeps_function hd .function keyword fuel).bind fun _ => .pure _
  · exact .pass fun _ => keeps_varDeclaration fuel
  · exact keeps_statementRule hd hs fuel

end Statements

end Nested

theorem keeps_wholeExpression (fuel : Nat) : C.Keeps (wholeExpression fuel) :=
  (keeps_expression fuel).bind fun e =>
    .peek fun _ => .ite (.pure (some e)) (.complain rfl (.pure none))

/-! ## Going on after a problem -/

/-- Nothing but passing tokens stands between a problem and where the parser goes on. -/
theorem goes_synchronizeFrom (skipped : Token) (fuel : Nat) (c : Cursor) :
    Ensures (synchronizeFrom skipped fuel) c (fun _ d => C.Goes c d) fun h _ => h ≠ .syntaxProblem := by
  induction fuel generalizing skipped c with
  | zero => exact nofun
  | succ fuel ih =>
    rw [synchronizeFrom, ensures_bind, ensures_peek]
    split
    · exact C.refl c
    · rw [ensures_bind, ensures_advance]
      exact (ih _ _).mono (fun _ _ _ h => C.trans (C.advance c) h) fun _ _ h => h

theorem goes_of_synchronize {fuel : Nat} {e f : Cursor} (h : synchronize fuel e = .ok () f) :
    C.Goes e.advance f := by
  have hskips : Ensures (synchronize fuel) e (fun _ f => C.Goes e.advance f)
      fun h _ => h ≠ .syntaxProblem :=
    goes_synchronizeFrom e.current fuel e.advance
  exact hskips.ok_of_eq h

theorem keepsAt_recovering {rule : Parser Stmt} {c : Cursor} {fuel : Nat}
    (hkeep : ∀ s d, rule c = .ok s d → recovering rule fuel c = .ok (some s) d → C.Goes c d)
    (hresume : ∀ e f, rule c = .error .syntaxProblem e → recovering rule fuel c = .ok none f →
      synchronize fuel e = .ok () f → C.Goes c f) : C.KeepsAt (recovering rule fuel) c := by
  have hrecovering := recovering_eq rule fuel c
  cases hr : rule c with
  | ok s d =>
    rw [hr] at hrecovering
    rw [KeepsAt, Ensures, hrecovering]
    exact hkeep s d hr hrecovering
  | error h e =>
    rw [hr] at hrecovering
    cases h with
    | outOfFuel =>
      rw [KeepsAt, Ensures, hrecovering]
      rintro ⟨⟩
    | syntaxProblem =>
      cases hf : synchronize fuel e with
      | ok u f =>
        have hended := hrecovering.trans (bind_of_ok hf)
        rw [KeepsAt, Ensures, hended]
        exact hresume e f hr hended hf
      | error h f =>
        have hskips := goes_synchronizeFrom (C := C) e.current fuel e.advance
        rw [KeepsAt, Ensures, hrecovering.trans (bind_of_error hf)]
        exact fun hh => absurd hh (hskips.halt_of_eq hf)

/-- **The rules for declarations keep every steady course.** -/
theorem keeps_declaration (hC : C.Steady) (fuel : Nat) :
    C.Keeps (declaration fuel) ∧ C.Keeps (statement fuel) := by
  induction fuel with
  | zero => exact ⟨.outOfFuel, .outOfFuel⟩
  | succ fuel ih =>
    obtain ⟨hd, hs⟩ := ih
    refine ⟨fun c => ?_, keeps_statementRule hd.inside hs fuel⟩
    have hrule := keeps_declarationRule hd.inside hs fuel c
    refine keepsAt_recovering (fun s d htried _ => hrule.ok_of_eq htried) fun e f htried _ hskips => ?_
    have hgives := hrule.halt_of_eq htried rfl
    exact C.trans (hgives.goes hC) (C.trans (C.advance e) (goes_of_synchronize hskips))

/-! ## Where a way leads -/

namespace Cursor

theorem pull_suffix (last : Token) (complaints : List Complaint) (items : List Item) :
    (pull last complaints items).2.1 <:+ items := by
  induction items generalizing complaints with
  | nil => exact List.suffix_refl _
  | cons item items ih =>
    cases item with
    | ok t => exact List.suffix_cons _ _
    | error p => exact (ih _).trans (List.suffix_cons _ _)

theorem pending_advance (c : Cursor) : c.advance.pending <:+ c.pending := by
  unfold advance
  split
  · exact List.suffix_refl _
  · exact pull_suffix _ _ _

end Cursor

/-- From sound cursors to sound ones, in front of fewer items. -/
def Course.leading : Course where
  Goes c d := c.Sound → c.Leads d ∧ d.pending <:+ c.pending
  refl c _ := ⟨.refl c, List.suffix_refl _⟩
  trans := fun h h' hc =>
    have ⟨hleads, hpending⟩ := h hc
    have ⟨hleads', hpending'⟩ := h' (hleads.sound hc)
    ⟨hleads.trans hleads', hpending'.trans hpending⟩
  advance c hc := ⟨Cursor.leads_advance hc, c.pending_advance⟩
  number _ _ := ⟨leads_freshId, List.suffix_refl _⟩
  note _ _ _ := ⟨(leads_note _ _).1, List.suffix_refl _⟩
  target := fun {c _} _ h hc =>
    have hpass := Cursor.leads_advance hc
    have ⟨hleads, hpending⟩ := h (hpass.sound hc)
    ⟨(hpass.trans hleads).trans (leads_note _ _).1, hpending.trans c.pending_advance⟩

theorem Course.steady_leading : Course.leading.Steady :=
  fun _ _ _ => ⟨(leads_note _ _).1, List.suffix_refl _⟩

/-! ## Problems that unwind -/

/-- The parser gave up a declaration with the problem. -/
def Complaint.unwinds (x : Complaint) : Bool :=
  match x.value with
  | .syntactic problem => problem.unwinds
  | _ => false

namespace Cursor

/-- The problems so far with which declarations were given up, the last one first. -/
def unwound (c : Cursor) : List Complaint := c.complaints.filter Complaint.unwinds

theorem unwound_pull (last : Token) (complaints : List Complaint) (items : List Item) :
    (pull last complaints items).2.2.filter Complaint.unwinds = complaints.filter Complaint.unwinds := by
  induction items generalizing complaints with
  | nil => rfl
  | cons item items ih =>
    cases item with
    | ok t => rfl
    | error p => exact ih _

/-- What comes into view is no reason to give anything up. -/
theorem unwound_advance (c : Cursor) : c.advance.unwound = c.unwound := by
  unfold advance
  split
  · rfl
  · exact unwound_pull _ _ _

theorem unwound_note {problem : SyntaxProblem} (h : problem.unwinds = false) (c : Cursor)
    (place : Position) : (c.note problem place).unwound = c.unwound :=
  List.filter_cons_of_neg (by simpa [Complaint.unwinds] using h)

theorem unwound_giveUp {problem : SyntaxProblem} (h : problem.unwinds = true) (c : Cursor)
    (place : Position) :
    (c.note problem place).unwound = ⟨.syntactic problem, place⟩ :: c.unwound :=
  List.filter_cons_of_pos (by simpa [Complaint.unwinds] using h)

theorem unwound_start (items : List Item) (firstId : ExprId) : (start items firstId).unwound = [] :=
  unwound_pull Token.endOfNothing [] items

end Cursor

end Lox
