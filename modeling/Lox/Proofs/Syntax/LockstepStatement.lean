import Lox.Proofs.Syntax.Lockstep
import Lox.Proofs.Syntax.ReadStatement

/-!
# Statements read in lockstep

* `tracks_recovering`: a declaration that is given up from one cursor is given up from the other one,
  and both go on at the same token;
* `tracks_function`, `tracks_ifStatement`, …: one lemma for each rule, under the assumption that the
  rules for nested declarations and statements track each other;
* **`tracks_declaration`**, **`tracks_declarationsFrom`**: whole declarations and rows of them.
-/

namespace Lox

open Lox.Parser

variable {L : Lockstep}

/-- A rule for statements tracks another one. -/
abbrev TracksStmt (L : Lockstep) (x y : Parser Stmt) : Prop := Tracks L x y L.transfer.stmt

/-- A rule for declarations tracks another one. -/
abbrev TracksDeclaration (L : Lockstep) (x y : Parser (Option Stmt)) : Prop :=
  Tracks L x y (Option.map L.transfer.stmt)

/-! ## Going on after a problem -/

theorem tracks_synchronizeFrom (skipped : Token) {fuel fuel' : Nat} (hf : fuel ≤ fuel') :
    Tracks L (synchronizeFrom skipped fuel) (synchronizeFrom (L.transfer.token skipped) fuel') id := by
  induction fuel generalizing skipped fuel' with
  | zero => exact .outOfFuel
  | succ fuel ih =>
    obtain ⟨fuel', rfl⟩ := Nat.exists_eq_add_one_of_ne_zero (Nat.ne_of_gt (Nat.zero_lt_of_lt hf))
    rw [synchronizeFrom, synchronizeFrom, L.transfer.terminal_token]
    exact .peek fun _ => .ite .rfl (.pure rfl) (.pass fun t => ih t (Nat.le_of_succ_le_succ hf))

theorem tracks_recovering {x y : Parser Stmt} (h : TracksStmt L x y) {fuel fuel' : Nat}
    (hf : fuel ≤ fuel') : TracksDeclaration L (recovering x fuel) (recovering y fuel') := by
  have hskip : TracksDeclaration L (synchronize fuel >>= fun _ => pure none)
      (synchronize fuel' >>= fun _ => pure none) := by
    have hsynchronize : Tracks L (synchronize fuel) (synchronize fuel') id :=
      .pass fun t => tracks_synchronizeFrom t hf
    exact hsynchronize.bind fun _ => .pure rfl
  constructor
  case lost =>
    intro c hc
    have hx := h.lost c hc
    rw [Ensures, recovering_eq]
    cases hr : x c with
    | ok s e => exact hx.ok_of_eq hr
    | error halt e =>
      cases halt with
      | outOfFuel =>
        intro h
        cases h
      | syntaxProblem => exact hskip.lost e (hx.halt_of_eq hr rfl)
  case aligned =>
    intro c d hcd
    have hx := h.aligned c d hcd
    rw [Ensures, recovering_eq, recovering_eq]
    cases hr : x c with
    | ok s c' =>
      refine (hx.ok_of_eq hr).imp_right ?_
      rintro ⟨d', hd, hcd'⟩
      exact ⟨d', by rw [hd]; rfl, hcd'⟩
    | error halt c' =>
      cases halt with
      | outOfFuel =>
        intro h
        cases h
      | syntaxProblem =>
        -- both go on, unless the first one has seen too much already
        rcases hx.halt_of_eq hr rfl with hlost | ⟨d', hd, hcd'⟩
        · exact (hskip.lost c' hlost).mono (fun _ _ _ h => .inl h) fun _ _ h hh => .inl (h hh)
        · rw [hd]
          exact hskip.aligned c' d' hcd'

/-! ## Declarations -/

section Nested

variable {declaration declaration' : Parser (Option Stmt)} {statement statement' : Parser Stmt}
variable (hd : TracksDeclaration L declaration declaration')
variable (hs : TracksStmt L statement statement')
variable {fuel fuel' : Nat} (hf : fuel ≤ fuel')

include hf

section Declarations

include hd

theorem tracks_declarationsFrom (last : Terminal) (front : List Stmt) (read read' : Array Stmt)
    (hread : read'.toList = front ++ read.toList.map L.transfer.stmt) :
    Tracks L (declarationsFrom declaration last read fuel)
      (declarationsFrom declaration' last read' fuel')
      fun ss => front ++ ss.map L.transfer.stmt := by
  induction fuel generalizing read read' fuel' with
  | zero => exact .outOfFuel
  | succ fuel ih =>
    obtain ⟨fuel', rfl⟩ := Nat.exists_eq_add_one_of_ne_zero (Nat.ne_of_gt (Nat.zero_lt_of_lt hf))
    have hle := Nat.le_of_succ_le_succ hf
    rw [declarationsFrom, declarationsFrom]
    refine .goesOnUnless fun go => .ite .rfl (hd.bind fun o => ?_) (.pure hread)
    cases o with
    | none => exact ih hle read read' hread
    | some s => exact ih hle _ _ (by simp [hread])

theorem tracks_block :
    Tracks L (block declaration fuel) (block declaration' fuel')
      (Prod.map (List.map L.transfer.stmt) L.transfer.token) :=
  (tracks_declarationsFrom hd hf _ [] #[] #[] rfl).bind fun _ => .expect fun _ => .pure rfl

omit hd in
theorem tracks_parametersFrom (read : Array Token) :
    Tracks L (parametersFrom read fuel) (parametersFrom (read.map L.transfer.token) fuel')
      (List.map L.transfer.token) := by
  induction fuel generalizing read fuel' with
  | zero => exact .outOfFuel
  | succ fuel ih =>
    obtain ⟨fuel', rfl⟩ := Nat.exists_eq_add_one_of_ne_zero (Nat.ne_of_gt (Nat.zero_lt_of_lt hf))
    rw [parametersFrom, parametersFrom]
    refine .limited _ (by rw [Array.size_map]) (.expect fun parameter => ?_)
    rw [← Array.map_push]
    exact .accept? (.pure Array.toList_map) fun _ => ih (Nat.le_of_succ_le_succ hf) _

theorem tracks_function (form : FunctionForm) (first : Token) :
    Tracks L (function declaration form first fuel)
      (function declaration' form (L.transfer.token first) fuel') L.transfer.function := by
  have hparams : Tracks L (parametersFrom #[] fuel) (parametersFrom #[] fuel')
      (List.map L.transfer.token) := by
    simpa using tracks_parametersFrom (L := L) hf #[]
  refine .expect fun name => .expect fun _ => .peek fun seen => ?_
  have hbody (params : List Token) : Tracks L
      (do
        let _ ← expectMark .rightParen .afterParameters
        let _ ← expectMark .leftBrace (.beforeFunctionBody form)
        let r ← block declaration fuel
        return (⟨name, params, r.1, spanFrom first r.2⟩ : Function))
      (do
        let _ ← expectMark .rightParen .afterParameters
        let _ ← expectMark .leftBrace (.beforeFunctionBody form)
        let r ← block declaration' fuel'
        return (⟨L.transfer.token name, params.map L.transfer.token, r.1,
          spanFrom (L.transfer.token first) r.2⟩ : Function))
      L.transfer.function := by
    refine .expect fun _ => .expect fun _ => (tracks_block hd hf).bind fun r => .pure ?_
    rw [Transfer.function_mk]
    rfl
  refine .ite .rfl ?_ ?_
  · have hnone : Tracks L (pure []) (pure []) (List.map L.transfer.token) := .pure rfl
    exact hnone.bind fun params => hbody params
  · exact hparams.bind fun params => hbody params

theorem tracks_methodsFrom (read : Array Function) :
    Tracks L (methodsFrom declaration read fuel)
      (methodsFrom declaration' (read.map L.transfer.function) fuel')
      (List.map L.transfer.function) := by
  induction fuel generalizing read fuel' with
  | zero => exact .outOfFuel
  | succ fuel ih =>
    obtain ⟨fuel', rfl⟩ := Nat.exists_eq_add_one_of_ne_zero (Nat.ne_of_gt (Nat.zero_lt_of_lt hf))
    have hle := Nat.le_of_succ_le_succ hf
    rw [methodsFrom, methodsFrom]
    refine .goesOnUnless fun go => .ite .rfl (.get fun c d hcurrent => ?_) (.pure Array.toList_map)
    rw [hcurrent]
    refine (tracks_function hd hle .method c.current).bind fun method => ?_
    rw [← Array.map_push]
    exact ih hle _

omit hd hf in
theorem tracks_superclass? :
    Tracks L superclass? superclass? (Option.map L.transfer.occurrence) :=
  .accept? (.pure rfl) fun _ => .expect fun _ => .freshId fun _ => .pure rfl

theorem tracks_classDeclaration (keyword : Token) :
    TracksStmt L (classDeclaration declaration keyword fuel)
      (classDeclaration declaration' (L.transfer.token keyword) fuel') := by
  have hmethods : Tracks L (methodsFrom declaration #[] fuel) (methodsFrom declaration' #[] fuel')
      (List.map L.transfer.function) := by
    simpa using tracks_methodsFrom hd hf #[]
  refine .expect fun name => tracks_superclass?.bind fun superclass => .expect fun _ => ?_
  refine hmethods.bind fun methods => .expect fun close => .pure ?_
  rw [Transfer.stmt_class]
  rfl

end Declarations

theorem tracks_varDeclaration : TracksStmt L (varDeclaration fuel) (varDeclaration fuel') := by
  have hclose (name : Token) (initializer : Option Expr) : TracksStmt L
      (do
        let _ ← expectMark .semicolon .afterVariableDeclaration
        return .var name initializer)
      (do
        let _ ← expectMark .semicolon .afterVariableDeclaration
        return .var (L.transfer.token name) (initializer.map L.transfer.expr)) :=
    .expect fun _ => .pure (Transfer.stmt_var L.transfer name initializer).symm
  refine .expect fun name => .accept? ?_ fun _ => ?_
  · have hnone : Tracks L (pure none) (pure none) (Option.map L.transfer.expr) := .pure rfl
    exact hnone.bind fun o => hclose name o
  · have hsome : Tracks L (some <$> expression fuel) (some <$> expression fuel')
        (Option.map L.transfer.expr) :=
      (tracks_expression hf).map fun _ => rfl
    exact hsome.bind fun o => hclose name o

/-! ## Statements -/

theorem tracks_expressionStatement :
    TracksStmt L (expressionStatement fuel) (expressionStatement fuel') :=
  (tracks_expression hf).bind fun _ => .expect fun _ => .pure rfl

theorem tracks_optionalExpression (stop : Punct) :
    Tracks L (optionalExpression stop fuel) (optionalExpression stop fuel')
      (Option.map L.transfer.expr) :=
  .peek fun _ => .ite .rfl (.pure rfl) ((tracks_expression hf).map fun _ => rfl)

theorem tracks_forInitializer :
    Tracks L (forInitializer fuel) (forInitializer fuel') (Option.map L.transfer.stmt) := by
  refine .peek fun seen => ?_
  split
  · exact .pass fun _ => .pure rfl
  · exact .pass fun _ => (tracks_varDeclaration hf).map fun _ => rfl
  · exact (tracks_expressionStatement hf).map fun _ => rfl

theorem tracks_returnStatement (keyword : Token) :
    TracksStmt L (returnStatement keyword fuel)
      (returnStatement (L.transfer.token keyword) fuel') :=
  (tracks_optionalExpression hf _).bind fun value => .expect fun _ =>
    .pure (Transfer.stmt_return L.transfer keyword value).symm

theorem tracks_printStatement : TracksStmt L (printStatement fuel) (printStatement fuel') :=
  (tracks_expression hf).bind fun _ => .expect fun _ => .pure rfl

section Statements

include hs

theorem tracks_forStatement :
    TracksStmt L (forStatement statement fuel) (forStatement statement' fuel') := by
  refine .expect fun _ => (tracks_forInitializer hf).bind fun initializer => ?_
  refine (tracks_optionalExpression hf _).bind fun condition => .expect fun _ => ?_
  refine (tracks_optionalExpression hf _).bind fun increment => .expect fun _ => ?_
  exact hs.bind fun body => .pure (Transfer.stmt_forLoop L.transfer ..).symm

/-- An `else` belongs to the same `if`, as the token in view is the same. -/
theorem tracks_ifStatement :
    TracksStmt L (ifStatement statement fuel) (ifStatement statement' fuel') := by
  refine .expect fun _ => (tracks_expression hf).bind fun condition => .expect fun _ => ?_
  refine hs.bind fun thenBranch => .accept? (.pure rfl) fun _ => hs.bind fun elseBranch => .pure rfl

theorem tracks_whileStatement :
    TracksStmt L (whileStatement statement fuel) (whileStatement statement' fuel') :=
  .expect fun _ => (tracks_expression hf).bind fun _ => .expect fun _ => hs.bind fun _ => .pure rfl

include hd

theorem tracks_statementRule :
    TracksStmt L (statementRule declaration statement fuel)
      (statementRule declaration' statement' fuel') := by
  rw [statementRule, statementRule]
  refine .peek fun seen => ?_
  split
  · exact .pass fun _ => tracks_forStatement hs hf
  · exact .pass fun _ => tracks_ifStatement hs hf
  · exact .pass fun _ => tracks_whileStatement hs hf
  · exact .pass fun _ => tracks_returnStatement hf _
  · exact .pass fun _ => .expect fun _ => .pure rfl
  · exact .pass fun _ => .expect fun _ => .pure rfl
  · exact .pass fun _ => (tracks_block hd hf).bind fun r =>
      .pure (Transfer.stmt_block L.transfer r.1).symm
  · exact .pass fun _ => tracks_printStatement hf
  · exact tracks_expressionStatement hf

theorem tracks_declarationRule :
    TracksStmt L (declarationRule declaration statement fuel)
      (declarationRule declaration' statement' fuel') := by
  rw [declarationRule, declarationRule]
  refine .peek fun seen => ?_
  split
  · exact .pass fun _ => tracks_classDeclaration hd hf _
  · exact .pass fun _ => (tracks_function hd hf _ _).bind fun _ => .pure rfl
  · exact .pass fun _ => tracks_varDeclaration hf
  · exact tracks_statementRule hd hs hf

end Statements

end Nested

/-- **The rules for declarations and for statements track themselves**, whatever bounds they are
given. -/
theorem tracks_declaration {fuel fuel' : Nat} (hf : fuel ≤ fuel') :
    TracksDeclaration L (declaration fuel) (declaration fuel') ∧
      TracksStmt L (statement fuel) (statement fuel') := by
  induction fuel generalizing fuel' with
  | zero => exact ⟨.outOfFuel, .outOfFuel⟩
  | succ fuel ih =>
    obtain ⟨fuel', rfl⟩ := Nat.exists_eq_add_one_of_ne_zero (Nat.ne_of_gt (Nat.zero_lt_of_lt hf))
    have hle := Nat.le_of_succ_le_succ hf
    obtain ⟨hd, hs⟩ := ih hle
    exact ⟨tracks_recovering (tracks_declarationRule hd hs hle) hle, tracks_statementRule hd hs hle⟩

end Lox
