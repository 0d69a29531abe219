import Lox.Machine.Evaluate
import Lox.Proofs.Ensures

/-!
# What a run can never do

A relation between machines that every elementary action respects is respected by every run,
however it ends. Nothing is assumed of the program or of the machine.

* `Eval.Keeps`: an action leads only to related machines, `Steady`: so do the elementary actions;
* `Steady.invoke`, `Steady.callRule`, …: the rules of evaluation, made up of such actions;
* **`Steady.evaluate`**, `Steady.execute`, `Steady.call`: whole runs;
* `steady_surroundings`: no run moves its place or its globals, learns a distance or changes the clock.
-/

namespace Lox

variable {α β : Type}

/-- However the action ends, it leads to a related machine. -/
def Eval.Keeps (R : Machine → Machine → Prop) (x : Eval α) : Prop :=
  ∀ m, Ensures x m (fun _ m' => R m m') (fun _ m' => R m m')

/-- The relation is respected by every elementary action. -/
structure Steady (R : Machine → Machine → Prop) : Prop where
  refl : ∀ m, R m m
  trans : ∀ {m₁ m₂ m₃}, R m₁ m₂ → R m₂ m₃ → R m₁ m₃
  within : ∀ {m m'} (k : ScopeId), R { m with current := k } m' → R m { m' with current := m.current }
  openScope : ∀ parent, (Eval.openScope parent).Keeps R
  define : ∀ scope name v, (Eval.define scope name v).Keeps R
  freshObject : Eval.freshObject.Keeps R
  freshInstance : ∀ c, (Eval.freshInstance c).Keeps R
  setField : ∀ id name v, (Eval.setField id name v).Keeps R
  write : ∀ text, (Eval.write text).Keeps R
  readClock : Eval.readClock.Keeps R

theorem Eval.keeps_get {R : Machine → Machine → Prop} {f : Machine → Eval β}
    (hf : ∀ m, (f m).Keeps R) : Keeps R ((MonadState.get : Eval Machine) >>= f) := fun m => hf m m

namespace Steady

open Eval

variable {R : Machine → Machine → Prop} (h : Steady R)

include h

/-! ## Actions made up of others -/

theorem pure (a : α) : Keeps R (pure a : Eval α) := h.refl

theorem throw (e : Interrupt) : Keeps R (throw e : Eval α) := h.refl

theorem bind {x : Eval α} {f : α → Eval β} (hx : x.Keeps R) (hf : ∀ a, (f a).Keeps R) :
    (x >>= f).Keeps R := fun m =>
  (hx m).bind (fun a m₁ _ h₁ => (hf a m₁).mono (fun _ _ _ => h.trans h₁) fun _ _ => h.trans h₁)
    fun _ _ h₁ => h₁

theorem map {x : Eval α} (f : α → β) (hx : x.Keeps R) : (f <$> x).Keeps R :=
  h.bind hx fun a => h.pure (f a)

theorem inside {x : Eval α} (hx : x.Keeps R) (k : ScopeId) : (Eval.within k x).Keeps R := by
  intro m
  have hm := hx { m with current := k }
  unfold Ensures Eval.within at *
  cases he : x { m with current := k } with
  | ok a m' =>
    rw [he] at hm
    exact h.within k hm
  | error e m' =>
    rw [he] at hm
    exact h.within k hm

theorem mapM {f : α → Eval β} (hf : ∀ a, (f a).Keeps R) (l : List α) : (l.mapM f).Keeps R := by
  induction l with
  | nil => exact h.pure []
  | cons a l ih =>
    rw [List.mapM_cons]
    exact h.bind (hf a) fun b => h.bind ih fun bs => h.pure (b :: bs)

theorem ofExcept (place : Token) (r : Except RuntimeProblem α) : (Eval.ofExcept place r).Keeps R := by
  cases r with
  | ok a => exact h.pure a
  | error problem => exact h.throw _

theorem print (line : String) : (Eval.print line).Keeps R := by
  refine h.bind (h.write _) fun answer => ?_
  cases answer with
  | none => exact h.pure _
  | some refusal => exact h.throw _

/-! ## Variables and methods -/

theorem locate (use : Occurrence) : (Eval.locate use).Keeps R := by
  refine keeps_get fun m => ?_
  split
  · exact h.pure _
  · exact h.throw _

theorem read (use : Occurrence) : (Eval.read use).Keeps R := by
  refine h.bind (h.locate use) fun holder => keeps_get fun m => ?_
  split
  · exact h.pure _
  · exact h.throw _

theorem assign (target : Occurrence) (v : Value) : (Eval.assign target v).Keeps R :=
  h.bind (h.locate target) fun holder => h.define holder _ v

theorem defineHere (name : String) (v : Value) : (Eval.defineHere name v).Keeps R :=
  keeps_get fun m => h.define m.current name v

theorem bindMethod (method : Closure) (this : Value) : (Eval.bind method this).Keeps R :=
  h.bind (h.openScope _) fun scope => h.bind (h.define scope _ this) fun _ => h.pure _

theorem bindValue (method : Closure) (this : Value) : (Eval.bindValue method this).Keeps R :=
  h.bind (h.bindMethod method this) fun _ => h.bind h.freshObject fun _ => h.pure _

theorem getProperty (object : Value) (name : Token) : (Eval.getProperty object name).Keeps R := by
  cases object with
  | «instance» id c =>
    refine keeps_get fun m => ?_
    split
    · exact h.pure _
    · split
      · exact h.bindValue _ _
      · exact h.throw _
  | _ => exact h.throw _

theorem instanceOf (object : Value) (name : Token) : (Eval.instanceOf object name).Keeps R := by
  cases object with
  | «instance» id c => exact h.pure id
  | _ => exact h.throw _

theorem superMethod (keyword : Occurrence) (method : Token) :
    (Eval.superMethod keyword method).Keeps R := by
  refine keeps_get fun m => ?_
  repeat' split
  all_goals first
    | exact h.bindValue _ _
    | exact h.throw _

/-! ## Calls and declarations -/

theorem defineAll (scope : ScopeId) (params : List Token) (arguments : List Value) :
    (Eval.defineAll scope params arguments).Keeps R := by
  induction params generalizing arguments with
  | nil => exact h.pure ()
  | cons param params ih =>
    cases arguments with
    | nil => exact h.pure ()
    | cons v arguments => exact h.bind (h.define scope _ v) fun _ => ih arguments

theorem runAll {run : Stmt → Eval Completion} (hrun : ∀ s, (run s).Keeps R) (ss : List Stmt) :
    (Eval.runAll run ss).Keeps R := by
  induction ss with
  | nil => exact h.pure _
  | cons s rest ih =>
    refine h.bind (hrun s) fun ended => ?_
    cases ended with
    | normal => exact ih
    | _ => exact h.pure _

theorem loop {condition : Eval Bool} {body : Eval Completion} {step : Eval Unit}
    (hc : condition.Keeps R) (hb : body.Keeps R) (hs : step.Keeps R) (fuel : Nat) :
    (Eval.loop condition body step fuel).Keeps R := by
  induction fuel with
  | zero => exact h.throw _
  | succ fuel ih =>
    refine h.bind hc fun goesOn => ?_
    cases goesOn with
    | false => exact h.pure _
    | true =>
      refine h.bind hb fun ended => ?_
      cases ended with
      | «break» => exact h.pure _
      | «return» v => exact h.pure _
      | _ => exact h.bind hs fun _ => ih

theorem invoke {run : Stmt → Eval Completion} (hrun : ∀ s, (run s).Keeps R) (c : Closure)
    (arguments : List Value) : (Eval.invoke run c arguments).Keeps R := by
  refine h.bind (h.openScope _) fun scope => h.bind (h.defineAll scope _ arguments) fun _ =>
    h.bind (h.inside (h.runAll hrun _) scope) fun ended => ?_
  split
  · exact keeps_get fun m => h.pure _
  · split <;> exact h.pure _

theorem checkArity (needed : Nat) (arguments : List Value) (paren : Token) :
    (Eval.checkArity needed arguments paren).Keeps R := by
  rw [Eval.checkArity]
  split
  · exact h.pure _
  · exact h.throw _

theorem callRule {run : Stmt → Eval Completion} (hrun : ∀ s, (run s).Keeps R) (callee : Value)
    (arguments : List Value) (paren : Token) :
    (Eval.callRule run callee arguments paren).Keeps R := by
  cases callee with
  | function id c => exact h.bind (h.checkArity _ _ _) fun _ => h.invoke hrun c arguments
  | native f =>
    cases f with
    | clock => exact h.bind (h.checkArity _ _ _) fun _ => h.readClock
  | «class» c =>
    refine h.bind (h.checkArity _ _ _) fun _ => h.bind (h.freshInstance c) fun this => ?_
    split
    · exact h.bind (h.bindMethod _ this) fun bound =>
        h.bind (h.invoke hrun bound arguments) fun _ => h.pure _
    · exact h.pure _
  | _ => exact h.throw _

theorem declareFunction (f : Function) : (Eval.declareFunction f).Keeps R :=
  keeps_get fun _ => h.bind h.freshObject fun _ => h.defineHere _ _

theorem superclassValue (superclass : Option Occurrence) :
    (Eval.superclassValue superclass).Keeps R := by
  cases superclass with
  | none => exact h.pure _
  | some use =>
    refine h.bind (h.read use) fun v => ?_
    cases v with
    | «class» c => exact h.pure _
    | _ => exact h.throw _

theorem methodScope (superclass : Option ClassObject) : (Eval.methodScope superclass).Keeps R := by
  refine keeps_get fun m => ?_
  cases superclass with
  | none => exact h.pure _
  | some parent =>
    exact h.bind (h.openScope _) fun scope => h.bind (h.define scope _ _) fun _ => h.pure _

theorem declareClass (c : Class) : (Eval.declareClass c).Keeps R :=
  h.bind (h.superclassValue _) fun parent => h.bind (h.methodScope parent) fun _ =>
    h.bind h.freshObject fun _ => h.defineHere _ _

/-! ## Expressions and statements -/

theorem optional {eval : Expr → Eval Value} (heval : ∀ e, (eval e).Keeps R) (e : Option Expr) :
    (Eval.optional eval e).Keeps R := by
  cases e with
  | none => exact h.pure _
  | some e => exact heval e

theorem conditionOf {eval : Expr → Eval Value} (heval : ∀ e, (eval e).Keeps R) (e : Option Expr) :
    (Eval.conditionOf eval e).Keeps R := by
  cases e with
  | none => exact h.pure _
  | some e => exact h.map _ (heval e)

theorem evaluateRule {eval : Expr → Eval Value} {call : Value → List Value → Token → Eval Value}
    (heval : ∀ e, (eval e).Keeps R) (hcall : ∀ v vs t, (call v vs t).Keeps R) (e : Expr) :
    (Eval.evaluateRule eval call e).Keeps R := by
  cases e with
  | literal constant => exact h.pure _
  | grouping inner => exact heval inner
  | unary op operator operand => exact h.bind (heval operand) fun v => h.ofExcept _ _
  | binary left op operator right =>
    exact h.bind (heval left) fun a => h.bind (heval right) fun b => h.ofExcept _ _
  | logical left op operator right =>
    refine h.bind (heval left) fun a => ?_
    split
    · exact h.pure a
    · exact heval right
  | «variable» use => exact h.read use
  | assign target e =>
    exact h.bind (heval e) fun v => h.bind (h.assign target v) fun _ => h.pure v
  | call callee arguments paren =>
    exact h.bind (heval callee) fun v => h.bind (h.mapM heval arguments) fun vs => hcall v vs paren
  | get object name => exact h.bind (heval object) fun v => h.getProperty v name
  | set object name e =>
    exact h.bind (heval object) fun v => h.bind (h.instanceOf v name) fun id =>
      h.bind (heval e) fun w => h.bind (h.setField id _ w) fun _ => h.pure w
  | this keyword => exact h.read keyword
  | super keyword method => exact h.superMethod keyword method

theorem executeRule {eval : Expr → Eval Value} {run : Stmt → Eval Completion}
    (heval : ∀ e, (eval e).Keeps R) (hrun : ∀ s, (run s).Keeps R) (fuel : Nat) (s : Stmt) :
    (Eval.executeRule eval run fuel s).Keeps R := by
  cases s with
  | expression e => exact h.bind (heval e) fun _ => h.pure _
  | print e => exact h.bind (heval e) fun v => h.bind (h.print v.text) fun _ => h.pure _
  | var name initializer =>
    exact h.bind (h.optional heval initializer) fun v => h.bind (h.defineHere _ v) fun _ => h.pure _
  | block body =>
    exact keeps_get fun m => h.bind (h.openScope _) fun scope => h.inside (h.runAll hrun body) scope
  | ifElse condition thenBranch elseBranch =>
    refine h.bind (heval condition) fun v => ?_
    split
    · exact hrun thenBranch
    · cases elseBranch with
      | none => exact h.pure _
      | some s => exact hrun s
  | whileLoop condition body =>
    exact h.loop (h.map _ (heval condition)) (hrun body) (h.pure ()) fuel
  | forLoop initializer condition increment body =>
    refine keeps_get fun m => h.bind (h.openScope _) fun scope => h.inside ?_ scope
    have hloop := h.loop (h.conditionOf heval condition) (hrun body)
      (h.bind (h.optional heval increment) fun _ => h.pure ()) fuel
    cases initializer with
    | none => exact hloop
    | some s => exact h.bind (hrun s) fun _ => hloop
  | function declaration => exact h.bind (h.declareFunction declaration) fun _ => h.pure _
  | «class» declaration => exact h.bind (h.declareClass declaration) fun _ => h.pure _
  | «return» keyword value => exact h.bind (h.optional heval value) fun v => h.pure _
  | «break» keyword => exact h.pure _
  | «continue» keyword => exact h.pure _

/-! ## Runs -/

theorem runs (fuel : Nat) :
    (∀ e, (Eval.evaluate fuel e).Keeps R) ∧ (∀ s, (Eval.execute fuel s).Keeps R) ∧
      ∀ callee arguments paren, (Eval.call fuel callee arguments paren).Keeps R := by
  induction fuel with
  | zero => exact ⟨fun _ => h.throw _, fun _ => h.throw _, fun _ _ _ => h.throw _⟩
  | succ fuel ih =>
    obtain ⟨heval, hrun, hcall⟩ := ih
    exact ⟨h.evaluateRule heval hcall, h.executeRule heval hrun fuel, h.callRule hrun⟩

/-- **Whatever every elementary action respects, the evaluation of every expression respects.** -/
theorem evaluate (fuel : Nat) (e : Expr) : (Eval.evaluate fuel e).Keeps R := (h.runs fuel).1 e

/-- **The execution of every statement respects it.** -/
theorem execute (fuel : Nat) (s : Stmt) : (Eval.execute fuel s).Keeps R := (h.runs fuel).2.1 s

/-- **Every call respects it.** -/
theorem call (fuel : Nat) (callee : Value) (arguments : List Value) (paren : Token) :
    (Eval.call fuel callee arguments paren).Keeps R :=
  (h.runs fuel).2.2 callee arguments paren

end Steady

/-! ## The surroundings of a run -/

/-- What a run finds and leaves: its place, its globals, the distances and the clock. -/
structure Machine.SameSurroundings (m m' : Machine) : Prop where
  current : m'.current = m.current
  globals : m'.globals = m.globals
  distances : m'.distances = m.distances
  clock : m'.clock = m.clock

/-- **No run moves its place, learns a distance or changes the clock.** -/
theorem steady_surroundings : Steady Machine.SameSurroundings where
  refl := fun _ => ⟨rfl, rfl, rfl, rfl⟩
  trans := fun h₁ h₂ => ⟨h₂.current.trans h₁.current, h₂.globals.trans h₁.globals,
    h₂.distances.trans h₁.distances, h₂.clock.trans h₁.clock⟩
  within := fun _ h => ⟨rfl, h.globals, h.distances, h.clock⟩
  openScope := fun _ _ => ⟨rfl, rfl, rfl, rfl⟩
  define := fun _ _ _ _ => ⟨rfl, rfl, rfl, rfl⟩
  freshObject := fun _ => ⟨rfl, rfl, rfl, rfl⟩
  freshInstance := fun _ _ => ⟨rfl, rfl, rfl, rfl⟩
  setField := fun _ _ _ _ => ⟨rfl, rfl, rfl, rfl⟩
  write := fun _ _ => ⟨rfl, rfl, rfl, rfl⟩
  readClock := fun _ => ⟨rfl, rfl, rfl, rfl⟩

end Lox
