import Lox.Proofs.Syntax.Counted
import Lox.Proofs.Syntax.Parse

/-!
# The rules number as they read

As long as no problem is noted, every rule numbers the occurrences of its tree in the order in which
it meets them.

* `Counts`: what a rule does to the next number, as long as no problem is noted;
* `Expr.Counted`, `Stmt.Counted`, …: a tree has the numbers from one on up to another one;
* `counts_expression`, `counts_declaration`: one lemma for each rule, up to whole declarations;
* **`counted_parse`**: the tree of a text without problems is numbered that way.
-/

namespace Lox

/-! ## Rules and numbers -/

/-- In front of the rule the next number is as `before` says, and behind it as `behind` says of the
tree, as long as no problem is noted. A problem that was noted stays noted, and a rule that gives up
has noted one. -/
def Counts {α : Type} (before : ExprId → Prop) (rule : Parser α) (behind : α → ExprId → Prop) : Prop :=
  ∀ c : Cursor, (c.complaints = [] → before c.nextId) →
    Ensures rule c (fun a d => d.complaints = [] → c.complaints = [] ∧ behind a d.nextId)
      fun halt d => halt = .syntaxProblem → d.complaints ≠ []

open Lox.Parser

namespace Counts

variable {α β : Type} {before before' : ExprId → Prop} {x : Parser α} {behind : α → ExprId → Prop}

theorem bind {f : α → Parser β} {behind' : β → ExprId → Prop} (hx : Counts before x behind)
    (hf : ∀ a, Counts (behind a) (f a) behind') : Counts before (x >>= f) behind' := fun c h =>
  (hx c h).bind (fun a d _ ha => (hf a d fun hd => (ha hd).2).mono
    (fun _ _ _ hb he => ⟨(ha (hb he).1).1, (hb he).2⟩) fun _ _ h => h) fun _ _ h => h

theorem pure {a : α} (h : ∀ n, before n → behind a n) : Counts before (Pure.pure a) behind :=
  fun c hc hd => ⟨hd, h c.nextId (hc hd)⟩

theorem imp {behind' : α → ExprId → Prop} (h : Counts before x behind)
    (hb : ∀ n, before' n → before n) (ha : ∀ a n, behind a n → behind' a n) :
    Counts before' x behind' := fun c hc =>
  (h c fun hd => hb _ (hc hd)).mono (fun a _ _ hd hs => (hd hs).imp_right (ha a _)) fun _ _ h => h

theorem map {f : α → β} {behind' : β → ExprId → Prop} (h : Counts before x behind)
    (ha : ∀ a n, behind a n → behind' (f a) n) : Counts before (f <$> x) behind' := fun c hc =>
  ensures_map.mpr ((h c hc).mono (fun a _ _ hd hs => (hd hs).imp_right (ha a _)) fun _ _ h => h)

/-- A rule goes on with whatever number is next. -/
theorem from_any {behind : ExprId → α → ExprId → Prop} (h : ∀ n, Counts (· = n) x (behind n)) :
    Counts before x fun a m => ∃ n, before n ∧ behind n a m := fun c hc =>
  (h c.nextId c fun _ => rfl).mono
    (fun _ _ _ hd hs => ⟨(hd hs).1, c.nextId, hc (hd hs).1, (hd hs).2⟩) fun _ _ h => h

theorem throw : Counts before (outOfFuel : Parser α) behind := fun _ _ h => by cases h

theorem ite {y : Parser α} {p : Prop} [Decidable p] (hx : Counts before x behind)
    (hy : Counts before y behind) : Counts before (if p then x else y) behind := by
  split
  · exact hx
  · exact hy

end Counts

section Basic

variable {before : ExprId → Prop}

theorem counts_get : Counts before (get : Parser Cursor) fun _ => before := fun _ h hd => ⟨hd, h hd⟩

theorem counts_peek : Counts before peek fun _ => before := fun _ h hd => ⟨hd, h hd⟩

theorem counts_advance : Counts before Parser.advance fun _ => before := fun c h => by
  show c.advance.complaints = [] → c.complaints = [] ∧ before c.advance.nextId
  intro hd
  unfold Cursor.advance at hd ⊢
  split at hd <;> rename_i hend
  · rw [if_pos hend]
    exact ⟨hd, h hd⟩
  · rw [if_neg hend]
    have hsuffix := (Cursor.pull_spec c.current c.complaints c.pending).2.1
    have hc : c.complaints = [] := List.suffix_nil.mp (hd ▸ hsuffix)
    exact ⟨hc, h hc⟩

theorem counts_freshId : Counts before freshId fun n m => before n ∧ m = n + 1 := fun _ h hd =>
  ⟨hd, h hd, rfl⟩

/-- Once a problem is noted nothing is said of the numbers. -/
theorem counts_complain (problem : SyntaxProblem) (place : Token) :
    Counts before (complain problem place) fun _ _ => False := fun _ _ hd =>
  absurd hd (List.cons_ne_nil _ _)

theorem counts_fail {α : Type} (problem : SyntaxProblem) {behind : α → ExprId → Prop} :
    Counts before (fail problem) behind := fun _ _ _ => List.cons_ne_nil _ _

theorem counts_accept? (terminal : Terminal) : Counts before (accept? terminal) fun _ => before :=
  counts_peek.bind fun _ =>
    .ite (counts_advance.bind fun _ => .pure fun _ h => h) (.pure fun _ h => h)

theorem counts_expect (terminal : Terminal) (problem : SyntaxProblem) :
    Counts before (expect terminal problem) fun _ => before :=
  (counts_accept? terminal).bind fun o => by
    cases o with
    | some t => exact .pure fun _ h => h
    | none => exact counts_fail problem

theorem counts_goesOnUnless (terminal : Terminal) :
    Counts before (goesOnUnless terminal) fun _ => before :=
  counts_peek.bind fun _ => .pure fun _ h => h

theorem counts_limited {α : Type} {p : Prop} [Decidable p] (problem : SyntaxProblem)
    {rest : Parser α} {behind : α → ExprId → Prop} (h : Counts before rest behind) :
    Counts before (if p then do complain problem (← get).current; rest else rest) behind :=
  .ite (counts_get.bind fun _ => (counts_complain _ _).bind fun _ =>
    h.imp (fun _ hn => hn.elim) fun _ _ hn => hn) h

end Basic

/-! ## Expressions -/

/-- The expression has the numbers from `n` on up to `m`. -/
def Expr.Counted (n : ExprId) (e : Expr) (m : ExprId) : Prop := e.count n = (e, m)

/-- The expressions have the numbers from `n` on up to `m`. -/
def Expr.CountedAll (n : ExprId) (es : List Expr) (m : ExprId) : Prop := Expr.countAll n es = (es, m)

/-- The expression has the numbers from `n` on up to `m`, if there is one. -/
def Expr.CountedOption (n : ExprId) (e : Option Expr) (m : ExprId) : Prop :=
  countOption Expr.count n e = (e, m)

theorem Expr.CountedOption.some {n m : ExprId} {e : Expr} (h : e.Counted n m) :
    Expr.CountedOption n (some e) m := by
  unfold Counted at h
  simp only [CountedOption, countOption, h]

theorem Expr.CountedAll.concat {n m k : ExprId} {es : List Expr} {e : Expr}
    (h : Expr.CountedAll n es m) (he : e.Counted m k) : Expr.CountedAll n (es ++ [e]) k := by
  unfold Counted at he
  induction es generalizing n with
  | nil =>
    cases h
    simp only [List.nil_append, CountedAll, countAll, he]
  | cons f es ih =>
    simp only [CountedAll, countAll, Prod.mk.injEq, List.cons.injEq] at h
    obtain ⟨⟨hf, hes⟩, hm⟩ := h
    have := @ih (f.count n).2 (Prod.ext hes hm)
    unfold CountedAll at this
    simp only [List.cons_append, CountedAll, countAll, hf, this]

section Expressions

variable {nested : Parser Expr} {n : ExprId}

theorem counts_chainFrom (level : Grammar.Level) {operand : Parser Expr}
    (ho : ∀ n, Counts (· = n) operand (Expr.Counted n)) (left : Expr) (fuel : Nat) :
    Counts (left.Counted n) (chainFrom level.operators operand left fuel) (Expr.Counted n) := by
  induction fuel generalizing left with
  | zero => exact .throw
  | succ fuel ih =>
    rw [chainFrom]
    refine counts_peek.bind fun seen => ?_
    cases hop : level.operators seen with
    | none => exact .pure fun _ h => h
    | some node =>
      refine counts_advance.bind fun operator => (Counts.from_any ho).bind fun right => ?_
      refine (ih (node left operator right)).imp ?_ fun _ _ h => h
      rintro k ⟨m, hl, hr⟩
      unfold Expr.Counted at hl hr ⊢
      obtain ⟨op, -, -, rfl⟩ | ⟨op, -, -, rfl⟩ := Grammar.Level.of_operators hop
      · simp only [binaryNode, Expr.count, hl, hr]
      · simp only [logicalNode, Expr.count, hl, hr]

theorem counts_chain (level : Grammar.Level) {operand : Parser Expr}
    (ho : ∀ n, Counts (· = n) operand (Expr.Counted n)) (fuel : Nat) (n : ExprId) :
    Counts (· = n) (chain level.operators operand fuel) (Expr.Counted n) :=
  (ho n).bind fun left => counts_chainFrom level ho left fuel

variable (hn : ∀ n, Counts (· = n) nested (Expr.Counted n))

include hn

theorem counts_argumentsFrom (es : Array Expr) (fuel : Nat) :
    Counts (Expr.CountedAll n es.toList) (argumentsFrom nested es fuel) (Expr.CountedAll n) := by
  induction fuel generalizing es with
  | zero => exact .throw
  | succ fuel ih =>
    rw [argumentsFrom]
    refine counts_limited _ ((Counts.from_any hn).bind fun e => (counts_accept? _).bind fun o => ?_)
    have hnext (k : ExprId) : (∃ m, Expr.CountedAll n es.toList m ∧ e.Counted m k) →
        Expr.CountedAll n (es.push e).toList k := by
      rintro ⟨m, hes, he⟩
      rw [Array.toList_push]
      exact hes.concat he
    cases o with
    | some comma => exact (ih _).imp hnext fun _ _ h => h
    | none => exact .pure hnext

theorem counts_arguments (n : ExprId) (fuel : Nat) :
    Counts (· = n) (arguments nested fuel) fun r => Expr.CountedAll n r.1 := by
  have hnil (m : ExprId) : m = n → Expr.CountedAll n [] m := fun h => by rw [h]; rfl
  refine counts_peek.bind fun seen => ?_
  refine .ite (Counts.bind (.pure hnil) fun es => ?_)
    (((counts_argumentsFrom hn #[] fuel).imp hnil fun _ _ h => h).bind fun es => ?_)
  all_goals exact (counts_expect _ _).bind fun _ => .pure fun _ h => h

theorem counts_primary (n : ExprId) : Counts (· = n) (primary nested) (Expr.Counted n) := by
  refine counts_get.bind fun c => ?_
  split
  · exact counts_advance.bind fun _ => .pure fun m h => by rw [h]; rfl
  · exact counts_advance.bind fun _ => .pure fun m h => by rw [h]; rfl
  · exact counts_advance.bind fun _ => .pure fun m h => by rw [h]; rfl
  · exact counts_advance.bind fun _ => .pure fun m h => by rw [h]; rfl
  · exact counts_advance.bind fun _ => .pure fun m h => by rw [h]; rfl
  · exact counts_advance.bind fun _ => counts_freshId.bind fun _ =>
      .pure fun m h => by rw [h.2, h.1]; rfl
  · exact counts_advance.bind fun _ => counts_freshId.bind fun _ =>
      .pure fun m h => by rw [h.2, h.1]; rfl
  · exact counts_advance.bind fun _ => (counts_expect _ _).bind fun _ =>
      (counts_expect _ _).bind fun _ => counts_freshId.bind fun _ =>
        .pure fun m h => by rw [h.2, h.1]; rfl
  · refine counts_advance.bind fun _ => (hn n).bind fun e => (counts_expect _ _).bind fun _ => ?_
    refine .pure fun m h => ?_
    unfold Expr.Counted at h ⊢
    simp only [Expr.count, h]
  · exact counts_fail _

theorem counts_callFrom (callee : Expr) (fuel : Nat) :
    Counts (callee.Counted n) (callFrom nested callee fuel) (Expr.Counted n) := by
  induction fuel generalizing callee with
  | zero => exact .throw
  | succ fuel ih =>
    rw [callFrom]
    refine counts_peek.bind fun seen => ?_
    split
    · refine counts_advance.bind fun _ =>
        (Counts.from_any fun n => counts_arguments hn n fuel).bind fun r => ?_
      refine (ih (.call callee r.1 r.2)).imp ?_ fun _ _ h => h
      rintro k ⟨m, hc, hes⟩
      unfold Expr.Counted Expr.CountedAll at *
      simp only [Expr.count, hc, hes]
    · refine counts_advance.bind fun _ => (counts_expect _ _).bind fun name => ?_
      refine (ih (.get callee name)).imp (fun k h => ?_) fun _ _ h => h
      unfold Expr.Counted at *
      simp only [Expr.count, h]
    · exact .pure fun _ h => h

theorem counts_unary (fuel : Nat) (n : ExprId) :
    Counts (· = n) (unary nested fuel) (Expr.Counted n) := by
  induction fuel with
  | zero => exact .throw
  | succ fuel ih =>
    rw [unary]
    refine counts_peek.bind fun seen => ?_
    cases prefixOp? seen with
    | none => exact (counts_primary hn n).bind fun callee => counts_callFrom hn callee fuel
    | some op =>
      refine counts_advance.bind fun _ => ih.bind fun operand => .pure fun m h => ?_
      unfold Expr.Counted at *
      simp only [Expr.count, h]

omit hn in
theorem counts_assignTo (target : Expr) (equals : Token) (value : Expr) :
    Counts (fun k => ∃ m, target.Counted n m ∧ value.Counted m k) (assignTo target equals value)
      (Expr.Counted n) := by
  unfold assignTo
  split
  · rename_i use
    refine counts_freshId.bind fun id => .pure ?_
    -- the number of the variable that was read first is given up
    rintro k ⟨⟨m, htarget, hvalue⟩, rfl⟩
    have hm : m = n + 1 := (congrArg Prod.snd htarget).symm
    subst hm
    unfold Expr.Counted at *
    simp only [Expr.count, hvalue, Occurrence.count]
  · rename_i object name
    refine .pure ?_
    rintro k ⟨m, htarget, hvalue⟩
    have hobject : object.count n = (object, m) := by
      simp only [Expr.Counted, Expr.count, Prod.mk.injEq, Expr.get.injEq, and_true] at htarget
      exact Prod.ext htarget.1 htarget.2
    unfold Expr.Counted at *
    simp only [Expr.count, hobject, hvalue]
  · exact (counts_complain _ _).bind fun _ => .pure fun _ h => h.elim

omit hn in
/-- **The occurrences of an expression are numbered in the order in which they are met.** -/
theorem counts_expression (fuel : Nat) (n : ExprId) :
    Counts (· = n) (expression fuel) (Expr.Counted n) := by
  induction fuel generalizing n with
  | zero => exact .throw
  | succ fuel ih =>
    have hfactor := counts_chain .product (counts_unary ih fuel) fuel
    have hterm := counts_chain .sum hfactor fuel
    have hcomparison := counts_chain .comparison hterm fuel
    have hequality := counts_chain .equality hcomparison fuel
    have hconjunction := counts_chain .conjunction hequality fuel
    have hdisjunction := counts_chain .disjunction hconjunction fuel
    refine Counts.bind (hdisjunction n) fun target => (counts_accept? _).bind fun o => ?_
    cases o with
    | none => exact .pure fun _ h => h
    | some equals =>
      exact (Counts.from_any ih).bind fun value => counts_assignTo target equals value

end Expressions

/-! ## Statements -/

/-- The statement has the numbers from `n` on up to `m`. -/
def Stmt.Counted (n : ExprId) (s : Stmt) (m : ExprId) : Prop := s.count n = (s, m)

/-- The statements have the numbers from `n` on up to `m`. -/
def Stmt.CountedAll (n : ExprId) (ss : List Stmt) (m : ExprId) : Prop := Stmt.countAll n ss = (ss, m)

/-- The statement has the numbers from `n` on up to `m`, if there is one. -/
def Stmt.CountedOption (n : ExprId) (s : Option Stmt) (m : ExprId) : Prop :=
  Stmt.countOption n s = (s, m)

/-- The function has the numbers from `n` on up to `m`. -/
def Function.Counted (n : ExprId) (f : Function) (m : ExprId) : Prop := f.count n = (f, m)

/-- The functions have the numbers from `n` on up to `m`. -/
def Function.CountedAll (n : ExprId) (fs : List Function) (m : ExprId) : Prop :=
  Function.countAll n fs = (fs, m)

section Parts

variable {n m k : ExprId}

theorem Stmt.CountedOption.some {s : Stmt} (h : s.Counted n m) : Stmt.CountedOption n (some s) m := by
  unfold Counted at h
  simp only [CountedOption, Stmt.countOption, h]

theorem Stmt.CountedAll.append {ss ts : List Stmt} (h : Stmt.CountedAll n ss m)
    (ht : Stmt.CountedAll m ts k) : Stmt.CountedAll n (ss ++ ts) k := by
  unfold CountedAll at ht
  induction ss generalizing n with
  | nil =>
    cases h
    exact ht
  | cons s ss ih =>
    simp only [CountedAll, countAll, Prod.mk.injEq, List.cons.injEq] at h
    obtain ⟨⟨hs, hss⟩, hm⟩ := h
    have := @ih (s.count n).2 (Prod.ext hss hm)
    unfold CountedAll at this
    simp only [List.cons_append, CountedAll, countAll, hs, this]

theorem Stmt.Counted.all {s : Stmt} (h : s.Counted n m) : Stmt.CountedAll n [s] m := by
  unfold Counted at h
  simp only [CountedAll, countAll, h]

theorem Function.CountedAll.concat {fs : List Function} {f : Function}
    (h : Function.CountedAll n fs m) (hf : f.Counted m k) : Function.CountedAll n (fs ++ [f]) k := by
  unfold Counted at hf
  induction fs generalizing n with
  | nil =>
    cases h
    simp only [List.nil_append, CountedAll, countAll, hf]
  | cons g fs ih =>
    simp only [CountedAll, countAll, Prod.mk.injEq, List.cons.injEq] at h
    obtain ⟨⟨hg, hfs⟩, hm⟩ := h
    have := @ih (g.count n).2 (Prod.ext hfs hm)
    unfold CountedAll at this
    simp only [List.cons_append, CountedAll, countAll, hg, this]

end Parts

section Recovery

variable {before : ExprId → Prop}

theorem counts_synchronizeFrom (skipped : Token) (fuel : Nat) :
    Counts before (synchronizeFrom skipped fuel) fun _ => before := by
  induction fuel generalizing skipped with
  | zero => exact .throw
  | succ fuel ih =>
    exact counts_peek.bind fun _ => .ite (.pure fun _ h => h) (counts_advance.bind fun t => ih t)

theorem counts_recovering {rule : Parser Stmt} {behind : Option Stmt → ExprId → Prop}
    (h : Counts before rule fun s => behind (some s)) (fuel : Nat) :
    Counts before (recovering rule fuel) behind := fun c hc => by
  have hrule := h c hc
  rw [Ensures, recovering_eq]
  cases hr : rule c with
  | ok s d => exact hrule.ok_of_eq hr
  | error halt d =>
    cases halt with
    | outOfFuel => exact fun he => by cases he
    | syntaxProblem =>
      have hnoted : d.complaints ≠ [] := hrule.halt_of_eq hr rfl
      have hskip : Counts (fun _ => False) (synchronize fuel >>= fun _ => pure none) behind :=
        (counts_advance.bind fun t => counts_synchronizeFrom t fuel).bind fun _ =>
          .pure fun _ hn => hn.elim
      exact (hskip d hnoted).mono (fun _ _ _ he hs => absurd (he hs).1 hnoted) fun _ _ h => h

end Recovery

section Statements

variable {declaration : Parser (Option Stmt)} {statement : Parser Stmt} {n : ExprId}

/-- What a rule for declarations does: a declaration that is left out has no numbers. -/
abbrev CountsDeclaration (declaration : Parser (Option Stmt)) : Prop :=
  ∀ n, Counts (· = n) declaration fun s m => ∃ t, s = some t ∧ t.Counted n m

abbrev CountsStatement (statement : Parser Stmt) : Prop :=
  ∀ n, Counts (· = n) statement (Stmt.Counted n)

theorem counts_declarationsFrom (hd : CountsDeclaration declaration) (last : Terminal)
    (ss : Array Stmt) (fuel : Nat) :
    Counts (Stmt.CountedAll n ss.toList) (declarationsFrom declaration last ss fuel)
      (Stmt.CountedAll n) := by
  induction fuel generalizing ss with
  | zero => exact .throw
  | succ fuel ih =>
    rw [declarationsFrom]
    refine (counts_goesOnUnless _).bind fun go => .ite ?_ (.pure fun _ h => h)
    refine (Counts.from_any hd).bind fun o => ?_
    cases o with
    | none =>
      refine (ih ss).imp ?_ fun _ _ h => h
      rintro k ⟨m, -, t, ht, -⟩
      cases ht
    | some s =>
      refine (ih (ss.push s)).imp ?_ fun _ _ h => h
      rintro k ⟨m, hss, t, ht, hs⟩
      cases ht
      rw [Array.toList_push]
      exact hss.append hs.all

theorem counts_block (hd : CountsDeclaration declaration) (fuel : Nat) (n : ExprId) :
    Counts (· = n) (block declaration fuel) fun r => Stmt.CountedAll n r.1 :=
  ((counts_declarationsFrom hd _ #[] fuel).imp (fun m h => by rw [h]; rfl) fun _ _ h => h).bind
    fun _ => (counts_expect _ _).bind fun _ => .pure fun _ h => h

theorem counts_parametersFrom {before : ExprId → Prop} (ps : Array Token) (fuel : Nat) :
    Counts before (parametersFrom ps fuel) fun _ => before := by
  induction fuel generalizing ps with
  | zero => exact .throw
  | succ fuel ih =>
    rw [parametersFrom]
    refine counts_limited _ ((counts_expect _ _).bind fun p => (counts_accept? _).bind fun o => ?_)
    cases o with
    | some comma => exact ih _
    | none => exact .pure fun _ h => h

theorem counts_function (hd : CountsDeclaration declaration) (form : FunctionForm) (first : Token)
    (fuel : Nat) (n : ExprId) :
    Counts (· = n) (function declaration form first fuel) (Function.Counted n) := by
  refine (counts_expect _ _).bind fun name => (counts_expect _ _).bind fun _ => ?_
  refine counts_peek.bind fun seen => ?_
  have hnil : Counts (· = n) (pure [] : Parser (List Token)) fun _ => (· = n) := .pure fun _ h => h
  refine .ite (hnil.bind fun ps => ?_) ((counts_parametersFrom #[] fuel).bind fun ps => ?_)
  all_goals
    refine (counts_expect _ _).bind fun _ => (counts_expect _ _).bind fun _ => ?_
    refine (counts_block hd fuel n).bind fun r => .pure fun m h => ?_
    unfold Stmt.CountedAll at h
    simp only [Function.Counted, Function.count, h]

theorem counts_methodsFrom (hd : CountsDeclaration declaration) (fs : Array Function) (fuel : Nat) :
    Counts (Function.CountedAll n fs.toList) (methodsFrom declaration fs fuel)
      (Function.CountedAll n) := by
  induction fuel generalizing fs with
  | zero => exact .throw
  | succ fuel ih =>
    rw [methodsFrom]
    refine (counts_goesOnUnless _).bind fun go => .ite ?_ (.pure fun _ h => h)
    refine counts_get.bind fun c => ?_
    refine (Counts.from_any fun n => counts_function hd .method c.current fuel n).bind fun f => ?_
    refine (ih (fs.push f)).imp ?_ fun _ _ h => h
    rintro k ⟨m, hfs, hf⟩
    rw [Array.toList_push]
    exact hfs.concat hf

theorem counts_superclass? (n : ExprId) :
    Counts (· = n) superclass? fun o m => countOption Occurrence.count n o = (o, m) := by
  refine (counts_accept? _).bind fun o => ?_
  cases o with
  | none => exact .pure fun m h => by rw [h]; rfl
  | some less =>
    exact (counts_expect _ _).bind fun _ => counts_freshId.bind fun _ =>
      .pure fun m h => by rw [h.2, h.1]; rfl

theorem counts_classDeclaration (hd : CountsDeclaration declaration) (keyword : Token) (fuel : Nat)
    (n : ExprId) :
    Counts (· = n) (classDeclaration declaration keyword fuel) (Stmt.Counted n) := by
  refine (counts_expect _ _).bind fun name => (counts_superclass? n).bind fun superclass => ?_
  refine (counts_expect _ _).bind fun _ => ?_
  have hmethods (n : ExprId) : Counts (· = n) (methodsFrom declaration #[] fuel)
      (Function.CountedAll n) :=
    (counts_methodsFrom hd #[] fuel).imp (fun m h => by rw [h]; rfl) fun _ _ h => h
  refine (Counts.from_any hmethods).bind fun methods => (counts_expect _ _).bind fun _ => ?_
  refine .pure ?_
  rintro k ⟨m, hsuper, hfs⟩
  unfold Function.CountedAll at hfs
  simp only [Stmt.Counted, Stmt.count, Class.count, hsuper, hfs]

theorem counts_optional {x : Parser Expr} (h : ∀ n, Counts (· = n) x (Expr.Counted n)) (n : ExprId) :
    Counts (· = n) (some <$> x) (Expr.CountedOption n) :=
  (h n).map fun _ _ he => .some he

theorem counts_none (n : ExprId) :
    Counts (· = n) (pure none : Parser (Option Expr)) (Expr.CountedOption n) :=
  .pure fun m h => by rw [h]; rfl

theorem counts_optionalExpression (stop : Punct) (fuel : Nat) (n : ExprId) :
    Counts (· = n) (optionalExpression stop fuel) (Expr.CountedOption n) :=
  counts_peek.bind fun _ => .ite (counts_none n) (counts_optional (counts_expression fuel) n)

theorem counts_varDeclaration (fuel : Nat) (n : ExprId) :
    Counts (· = n) (varDeclaration fuel) (Stmt.Counted n) := by
  refine (counts_expect _ _).bind fun name => (counts_accept? _).bind fun o => ?_
  cases o with
  | none =>
    refine (counts_none n).bind fun value => (counts_expect _ _).bind fun _ => .pure fun m h => ?_
    unfold Expr.CountedOption at h
    simp only [Stmt.Counted, Stmt.count, h]
  | some equals =>
    refine (counts_optional (counts_expression fuel) n).bind fun value => ?_
    refine (counts_expect _ _).bind fun _ => .pure fun m h => ?_
    unfold Expr.CountedOption at h
    simp only [Stmt.Counted, Stmt.count, h]

theorem counts_expressionStatement (fuel : Nat) (n : ExprId) :
    Counts (· = n) (expressionStatement fuel) (Stmt.Counted n) := by
  refine (counts_expression fuel n).bind fun e => (counts_expect _ _).bind fun _ => .pure fun m h => ?_
  unfold Expr.Counted at h
  simp only [Stmt.Counted, Stmt.count, h]

theorem counts_forInitializer (fuel : Nat) (n : ExprId) :
    Counts (· = n) (forInitializer fuel) (Stmt.CountedOption n) := by
  refine counts_peek.bind fun seen => ?_
  split
  · exact counts_advance.bind fun _ => .pure fun m h => by rw [h]; rfl
  · exact counts_advance.bind fun _ => (counts_varDeclaration fuel n).map fun _ _ h => .some h
  · exact (counts_expressionStatement fuel n).map fun _ _ h => .some h

theorem counts_forStatement (hs : CountsStatement statement) (fuel : Nat) (n : ExprId) :
    Counts (· = n) (forStatement statement fuel) (Stmt.Counted n) := by
  refine (counts_expect _ _).bind fun _ => (counts_forInitializer fuel n).bind fun initializer => ?_
  refine (Counts.from_any (counts_optionalExpression _ fuel)).bind fun condition => ?_
  refine (counts_expect _ _).bind fun _ => ?_
  refine (Counts.from_any (counts_optionalExpression _ fuel)).bind fun increment => ?_
  refine (counts_expect _ _).bind fun _ => (Counts.from_any hs).bind fun body => .pure ?_
  rintro l ⟨k, ⟨j, ⟨m, hinit, hcond⟩, hincr⟩, hbody⟩
  unfold Stmt.CountedOption at hinit
  unfold Expr.CountedOption at hcond hincr
  unfold Stmt.Counted at hbody ⊢
  simp only [Stmt.count, hinit, hcond, hincr, hbody]

theorem counts_ifStatement (hs : CountsStatement statement) (fuel : Nat) (n : ExprId) :
    Counts (· = n) (ifStatement statement fuel) (Stmt.Counted n) := by
  refine (counts_expect _ _).bind fun _ => (counts_expression fuel n).bind fun condition => ?_
  refine (counts_expect _ _).bind fun _ => (Counts.from_any hs).bind fun thenBranch => ?_
  refine (counts_accept? _).bind fun o => ?_
  cases o with
  | some other =>
    refine (Counts.from_any hs).bind fun elseBranch => .pure ?_
    rintro k ⟨j, ⟨m, hcond, hthen⟩, helse⟩
    unfold Expr.Counted at hcond
    unfold Stmt.Counted at *
    simp only [Stmt.count, Stmt.countOption, hcond, hthen, helse]
  | none =>
    refine .pure ?_
    rintro k ⟨m, hcond, hthen⟩
    unfold Expr.Counted at hcond
    unfold Stmt.Counted at *
    simp only [Stmt.count, Stmt.countOption, hcond, hthen]

theorem counts_whileStatement (hs : CountsStatement statement) (fuel : Nat) (n : ExprId) :
    Counts (· = n) (whileStatement statement fuel) (Stmt.Counted n) := by
  refine (counts_expect _ _).bind fun _ => (counts_expression fuel n).bind fun condition => ?_
  refine (counts_expect _ _).bind fun _ => (Counts.from_any hs).bind fun body => .pure ?_
  rintro k ⟨m, hcond, hbody⟩
  unfold Expr.Counted at hcond
  unfold Stmt.Counted at *
  simp only [Stmt.count, hcond, hbody]

theorem counts_statementRule (hd : CountsDeclaration declaration) (hs : CountsStatement statement)
    (fuel : Nat) (n : ExprId) :
    Counts (· = n) (statementRule declaration statement fuel) (Stmt.Counted n) := by
  refine counts_peek.bind fun seen => ?_
  split
  · exact counts_advance.bind fun _ => counts_forStatement hs fuel n
  · exact counts_advance.bind fun _ => counts_ifStatement hs fuel n
  · exact counts_advance.bind fun _ => counts_whileStatement hs fuel n
  · refine counts_advance.bind fun _ => (counts_optionalExpression _ fuel n).bind fun value => ?_
    refine (counts_expect _ _).bind fun _ => .pure fun m h => ?_
    unfold Expr.CountedOption at h
    simp only [Stmt.Counted, Stmt.count, h]
  · exact counts_advance.bind fun _ => (counts_expect _ _).bind fun _ =>
      .pure fun m h => by rw [h]; rfl
  · exact counts_advance.bind fun _ => (counts_expect _ _).bind fun _ =>
      .pure fun m h => by rw [h]; rfl
  · refine counts_advance.bind fun _ => (counts_block hd fuel n).bind fun r => .pure fun m h => ?_
    unfold Stmt.CountedAll at h
    simp only [Stmt.Counted, Stmt.count, h]
  · refine counts_advance.bind fun _ => (counts_expression fuel n).bind fun e => ?_
    refine (counts_expect _ _).bind fun _ => .pure fun m h => ?_
    unfold Expr.Counted at h
    simp only [Stmt.Counted, Stmt.count, h]
  · exact counts_expressionStatement fuel n

theorem counts_declarationRule (hd : CountsDeclaration declaration) (hs : CountsStatement statement)
    (fuel : Nat) (n : ExprId) :
    Counts (· = n) (declarationRule declaration statement fuel) (Stmt.Counted n) := by
  refine counts_peek.bind fun seen => ?_
  split
  · exact counts_advance.bind fun keyword => counts_classDeclaration hd keyword fuel n
  · refine counts_advance.bind fun keyword => (counts_function hd .function keyword fuel n).bind
      fun f => .pure fun m h => ?_
    unfold Function.Counted at h
    simp only [Stmt.Counted, Stmt.count, h]
  · exact counts_advance.bind fun _ => counts_varDeclaration fuel n
  · exact counts_statementRule hd hs fuel n

end Statements

/-- **The occurrences of a declaration are numbered in the order in which they are met**, and those
of a statement. -/
theorem counts_declaration (fuel : Nat) :
    CountsDeclaration (declaration fuel) ∧ CountsStatement (statement fuel) := by
  induction fuel with
  | zero => exact ⟨fun _ => .throw, fun _ => .throw⟩
  | succ fuel ih =>
    rw [declaration, statement]
    refine ⟨fun n => counts_recovering ?_ fuel, counts_statementRule ih.1 ih.2 fuel⟩
    exact (counts_declarationRule ih.1 ih.2 fuel n).imp (fun _ h => h) fun s _ h => ⟨s, rfl, h⟩

/-- **The tree of a text without problems is numbered from the first free number on**, up to the
number that is free then. -/
theorem counted_parse {source : String} {firstId : ExprId}
    (hclean : (parse source firstId).clean = true) :
    Stmt.CountedAll firstId (parse source firstId).tree (parse source firstId).nextId := by
  have hd := (counts_declaration (enoughFuel (scan source))).1
  have h : Ensures (declarations (enoughFuel (scan source))) (Cursor.start (scan source) firstId) _ _ :=
    ((counts_declarationsFrom hd .endOfInput #[] (enoughFuel (scan source))).imp
      (fun m (hm : m = firstId) => by rw [hm]; rfl) fun _ _ h => h)
        (Cursor.start (scan source) firstId) fun _ => rfl
  rw [Parsed.clean, List.isEmpty_iff] at hclean
  unfold parse Parser.run at hclean ⊢
  cases hx : declarations (enoughFuel (scan source)) (Cursor.start (scan source) firstId) with
  | ok tree d =>
    rw [hx] at hclean
    exact (h.ok_of_eq hx (List.reverse_eq_nil_iff.mp hclean)).2
  | error e d =>
    rw [hx] at hclean
    obtain ⟨-, hleads, hheard⟩ := (ensures_parse source firstId).halt_of_eq hx
    have hd : d.complaints = [] := List.reverse_eq_nil_iff.mp hclean
    exact absurd (hd.trans (List.suffix_nil.mp (hd ▸ hleads.complaints)).symm) hheard

end Lox
