import Lox.Proofs.Machine.Steady

/-!
# Two runs side by side

A relation between actions that goes through sequence and through another scope, and in which the
actions of a single step stand to themselves, goes through all rules of evaluation.

* `Parallel`: such a relation;
* `Parallel.runAll`, `Parallel.invoke`, …: rows of statements, calls and loops;
* **`Parallel.evaluateRule`**, **`Parallel.executeRule`**, `Parallel.callRule`: the rules, whose parts
  are run in two ways.
-/

namespace Lox

/-- The relation goes through everything of which a run is made up. -/
structure Parallel (Q : {α : Type} → Eval α → Eval α → Prop) : Prop where
  /-- An action that respects whatever the elementary actions respect stands to itself. -/
  same : ∀ {α : Type} {x : Eval α}, (∀ {R : Machine → Machine → Prop}, Steady R → x.Keeps R) → Q x x
  bind : ∀ {α β : Type} {x y : Eval α} {f g : α → Eval β}, Q x y → (∀ a, Q (f a) (g a)) →
    Q (x >>= f) (y >>= g)
  within : ∀ {α : Type} {x y : Eval α} (k : ScopeId), Q x y → Q (Eval.within k x) (Eval.within k y)

namespace Parallel

variable {Q : {α : Type} → Eval α → Eval α → Prop} (h : Parallel Q) {α β : Type}

include h

theorem pure (a : α) : Q (Pure.pure a) (Pure.pure a) := h.same fun hR => hR.pure a

theorem get {f g : Machine → Eval β} (hf : ∀ m, Q (f m) (g m)) :
    Q ((MonadState.get : Eval Machine) >>= f) ((MonadState.get : Eval Machine) >>= g) :=
  h.bind (h.same fun hR => hR.refl) hf

theorem map {x y : Eval α} (f : α → β) (hx : Q x y) : Q (f <$> x) (f <$> y) :=
  h.bind hx fun a => h.pure (f a)

theorem mapM {f g : α → Eval β} (hf : ∀ a, Q (f a) (g a)) (l : List α) : Q (l.mapM f) (l.mapM g) := by
  induction l with
  | nil => exact h.pure []
  | cons a l ih =>
    rw [List.mapM_cons, List.mapM_cons]
    exact h.bind (hf a) fun b => h.bind ih fun bs => h.pure (b :: bs)

variable {run run' : Stmt → Eval Completion} (hrun : ∀ s, Q (run s) (run' s))
variable {eval eval' : Expr → Eval Value} (heval : ∀ e, Q (eval e) (eval' e))

theorem loop {condition condition' : Eval Bool} {body body' : Eval Completion} {step step' : Eval Unit}
    (hc : Q condition condition') (hb : Q body body') (hs : Q step step') (fuel : Nat) :
    Q (Eval.loop condition body step fuel) (Eval.loop condition' body' step' fuel) := by
  induction fuel with
  | zero => exact h.same fun hR => hR.throw _
  | succ fuel ih =>
    refine h.bind hc fun goesOn => ?_
    cases goesOn with
    | false => exact h.pure _
    | true =>
      refine h.bind hb fun ended => ?_
      cases ended with
      | «break» => exact h.pure _
      | «return» v => exact h.pure _
      | _ => exact h.bind hs fun _ => ih

section Calls

include hrun

theorem runAll (ss : List Stmt) : Q (Eval.runAll run ss) (Eval.runAll run' ss) := by
  induction ss with
  | nil => exact h.pure _
  | cons s rest ih =>
    refine h.bind (hrun s) fun ended => ?_
    cases ended with
    | normal => exact ih
    | _ => exact h.pure _

theorem invoke (c : Closure) (arguments : List Value) :
    Q (Eval.invoke run c arguments) (Eval.invoke run' c arguments) := by
  refine h.bind (h.same fun hR => hR.openScope _) fun scope =>
    h.bind (h.same fun hR => hR.defineAll scope _ arguments) fun _ =>
    h.bind (h.within scope (h.runAll hrun c.declaration.body)) fun ended => ?_
  split
  · exact h.get fun m => h.pure _
  · split <;> exact h.pure _

theorem callRule (callee : Value) (arguments : List Value) (paren : Token) :
    Q (Eval.callRule run callee arguments paren) (Eval.callRule run' callee arguments paren) := by
  cases callee with
  | function id c =>
    exact h.bind (h.same fun hR => hR.checkArity _ _ _) fun _ => h.invoke hrun c arguments
  | native f =>
    cases f with
    | clock =>
      exact h.bind (h.same fun hR => hR.checkArity _ _ _) fun _ => h.same fun hR => hR.readClock
  | «class» c =>
    refine h.bind (h.same fun hR => hR.checkArity _ _ _) fun _ =>
      h.bind (h.same fun hR => hR.freshInstance c) fun this => ?_
    cases c.initializer? with
    | none => exact h.pure _
    | some initializer =>
      exact h.bind (h.same fun hR => hR.bindMethod initializer this) fun bound =>
        h.bind (h.invoke hrun bound arguments) fun _ => h.pure _
  | _ => exact h.same fun hR => hR.throw _

end Calls

section Rules

include heval

theorem optional (e : Option Expr) : Q (Eval.optional eval e) (Eval.optional eval' e) := by
  cases e with
  | none => exact h.pure _
  | some e => exact heval e

theorem conditionOf (e : Option Expr) : Q (Eval.conditionOf eval e) (Eval.conditionOf eval' e) := by
  cases e with
  | none => exact h.pure _
  | some e => exact h.map _ (heval e)

/-- **The rule for expressions**, whose operands and calls are run in two ways. -/
theorem evaluateRule {call call' : Value → List Value → Token → Eval Value}
    (hcall : ∀ v vs t, Q (call v vs t) (call' v vs t)) (e : Expr) :
    Q (Eval.evaluateRule eval call e) (Eval.evaluateRule eval' call' e) := by
  cases e with
  | literal constant => exact h.pure _
  | grouping inner => exact heval inner
  | unary op operator operand =>
    exact h.bind (heval operand) fun _ => h.same fun hR => hR.ofExcept _ _
  | binary left op operator right =>
    exact h.bind (heval left) fun _ => h.bind (heval right) fun _ => h.same fun hR => hR.ofExcept _ _
  | logical left op operator right =>
    refine h.bind (heval left) fun a => ?_
    split
    · exact h.pure a
    · exact heval right
  | «variable» use => exact h.same fun hR => hR.read use
  | assign target e =>
    exact h.bind (heval e) fun v => h.same fun hR => hR.bind (hR.assign target v) fun _ => hR.pure v
  | call callee arguments paren =>
    exact h.bind (heval callee) fun v => h.bind (h.mapM heval arguments) fun vs => hcall v vs paren
  | get object name => exact h.bind (heval object) fun v => h.same fun hR => hR.getProperty v name
  | set object name e =>
    exact h.bind (heval object) fun v => h.bind (h.same fun hR => hR.instanceOf v name) fun id =>
      h.bind (heval e) fun w => h.same fun hR => hR.bind (hR.setField id _ w) fun _ => hR.pure w
  | this keyword => exact h.same fun hR => hR.read keyword
  | super keyword method => exact h.same fun hR => hR.superMethod keyword method

include hrun

/-- **The rule for statements**, whose expressions, parts and loops are run in two ways. -/
theorem executeRule {fuel fuel' : Nat}
    (hloop : ∀ {condition condition' : Eval Bool} {body body' : Eval Completion}
      {step step' : Eval Unit}, Q condition condition' → Q body body' → Q step step' →
        Q (Eval.loop condition body step fuel) (Eval.loop condition' body' step' fuel')) (s : Stmt) :
    Q (Eval.executeRule eval run fuel s) (Eval.executeRule eval' run' fuel' s) := by
  cases s with
  | expression e => exact h.bind (heval e) fun _ => h.pure _
  | print e =>
    exact h.bind (heval e) fun v => h.same fun hR => hR.bind (hR.print v.text) fun _ => hR.pure _
  | var name initializer =>
    exact h.bind (h.optional heval initializer) fun v =>
      h.same fun hR => hR.bind (hR.defineHere _ v) fun _ => hR.pure _
  | block body =>
    exact h.get fun m => h.bind (h.same fun hR => hR.openScope _) fun scope =>
      h.within scope (h.runAll hrun body)
  | ifElse condition thenBranch elseBranch =>
    refine h.bind (heval condition) fun v => ?_
    split
    · exact hrun thenBranch
    · cases elseBranch with
      | none => exact h.pure _
      | some s => exact hrun s
  | whileLoop condition body =>
    exact hloop (h.map _ (heval condition)) (hrun body) (h.pure ())
  | forLoop initializer condition increment body =>
    have hrounds := hloop (h.conditionOf heval condition) (hrun body)
      (h.bind (h.optional heval increment) fun _ => h.pure ())
    refine h.get fun m => h.bind (h.same fun hR => hR.openScope _) fun scope => h.within scope ?_
    cases initializer with
    | none => exact hrounds
    | some s => exact h.bind (hrun s) fun _ => hrounds
  | function declaration =>
    exact h.same fun hR => hR.bind (hR.declareFunction declaration) fun _ => hR.pure _
  | «class» declaration =>
    exact h.same fun hR => hR.bind (hR.declareClass declaration) fun _ => hR.pure _
  | «return» keyword value => exact h.bind (h.optional heval value) fun _ => h.pure _
  | «break» keyword => exact h.pure _
  | «continue» keyword => exact h.pure _

end Rules

end Parallel

end Lox
