import Lox.Proofs.Machine.Follow

/-!
# Whole runs of a relocated program

The rules of evaluation are made up of steps that a relocated program follows, so a relocated program
follows whole runs.

* `EvalFollows`, `RunFollows`, `CallFollows`: the parts of a rule follow one another;
* `follows_invoke`, `follows_callRule`, …: calls, properties and declarations;
* `follows_evaluateRule`, `follows_executeRule`: the rules of evaluation;
* `follows_runs`: the relocated program does what the watched one does.
-/

namespace Lox

section Parts

variable (g : Replica) (signal : Interrupt)

/-- The evaluations of relocated expressions follow. -/
def EvalFollows (eval eval' : Expr → Eval Value) : Prop :=
  ∀ e m, Follows g signal (Value.relocate g.places) (eval e) (eval' (e.relocate g.places)) m

/-- The runs of relocated statements follow. -/
def RunFollows (run run' : Stmt → Eval Completion) : Prop :=
  ∀ s m, Follows g signal (Completion.relocate g.places) (run s) (run' (s.relocate g.places)) m

/-- The calls of relocated values follow. -/
def CallFollows (call call' : Value → List Value → Token → Eval Value) : Prop :=
  ∀ callee arguments paren m, Follows g signal (Value.relocate g.places) (call callee arguments paren)
    (call' (callee.relocate g.places) (arguments.map (Value.relocate g.places))
      (paren.relocate g.places)) m

end Parts

variable {g : Replica} {signal : Interrupt} {m : Machine} {eval eval' : Expr → Eval Value}
  {run run' : Stmt → Eval Completion} {call call' : Value → List Value → Token → Eval Value}

/-! ## Methods and properties -/

theorem follows_bind (method : Closure) (this : Value) :
    Follows g signal (Closure.relocate g.places) (Eval.bind method this)
      (Eval.bind (method.relocate g.places) (this.relocate g.places)) m :=
  (follows_openScope method.scope).bind fun scope _ _ =>
    (follows_define scope _ this).bind fun _ _ _ => .pure rfl

theorem follows_bindValue (method : Closure) (this : Value) :
    Follows g signal (Value.relocate g.places) (Eval.bindValue method this)
      (Eval.bindValue (method.relocate g.places) (this.relocate g.places)) m :=
  (follows_bind method this).bind fun _ _ _ => follows_freshObject.bind fun _ _ _ => .pure rfl

theorem follows_getProperty (object : Value) (name : Token) :
    Follows g signal (Value.relocate g.places) (Eval.getProperty object name)
      (Eval.getProperty (object.relocate g.places) (name.relocate g.places)) m := by
  cases object with
  | «instance» id c =>
    refine .get ?_
    have hfield : ((m.replica g).fields[id]?).bind (·.get? (name.relocate g.places).lexeme) =
        (m.fields[id]?.bind (·.get? name.lexeme)).map (Value.relocate g.places) := by
      show ((m.fields.map _)[id]?).bind _ = _
      rw [Array.getElem?_map]
      cases m.fields[id]? with
      | none => rfl
      | some b => exact Bindings.get?_map _ b name.lexeme
    have hmethod : (c.relocate g.places).method? (name.relocate g.places).lexeme =
        (c.method? name.lexeme).map (Closure.relocate g.places) := c.method?_relocate _ _
    rw [hfield, hmethod]
    cases m.fields[id]?.bind (·.get? name.lexeme) with
    | some v => exact .pure rfl
    | none =>
      cases c.method? name.lexeme with
      | some method => exact follows_bindValue method (.instance id c)
      | none => exact .fail _ _ _ _
  | _ => exact .fail _ _ _ _

theorem follows_instanceOf (object : Value) (name : Token) :
    Follows g signal id (Eval.instanceOf object name)
      (Eval.instanceOf (object.relocate g.places) (name.relocate g.places)) m := by
  cases object with
  | «instance» id c => exact .pure rfl
  | _ => exact .fail _ _ _ _

theorem follows_superMethod {keyword : Occurrence}
    (h : g.distances[keyword.id]? = m.distances[keyword.id]?) (method : Token) :
    Follows g signal (Value.relocate g.places) (Eval.superMethod keyword method)
      (Eval.superMethod (keyword.relocate g.places) (method.relocate g.places)) m := by
  have hget (d : Nat) (name : String) : (m.replica g).scopes.getAt (m.replica g).current d name =
      (m.scopes.getAt m.current d name).map (Value.relocate g.places) := Scopes.getAt_map _ _ _ _ _
  have hid : (m.replica g).distances[(keyword.relocate g.places).id]? = m.distances[keyword.id]? := h
  refine .get ?_
  dsimp only
  rw [hid]
  cases m.distances[keyword.id]? with
  | none => exact .fail _ _ _ _
  | some d =>
    dsimp only
    rw [hget]
    cases m.scopes.getAt m.current d Keyword.super.spelling with
    | none => exact .fail _ _ _ _
    | some found =>
      cases found with
      | «class» superclass =>
        cases d with
        | zero => exact .fail _ _ _ _
        | succ inner =>
          dsimp only
          rw [hget]
          cases m.scopes.getAt m.current inner Keyword.this.spelling with
          | none => exact .fail _ _ _ _
          | some this =>
            have hmethod : (superclass.relocate g.places).method? (method.relocate g.places).lexeme =
                (superclass.method? method.lexeme).map (Closure.relocate g.places) :=
              superclass.method?_relocate _ _
            dsimp only [Option.map_some, Value.relocate]
            rw [hmethod]
            cases superclass.method? method.lexeme with
            | some found => exact follows_bindValue found this
            | none => exact .fail _ _ _ _
      | _ => exact .fail _ _ _ _

/-! ## Calls -/

theorem follows_defineAll (scope : ScopeId) (params : List Token) (arguments : List Value) :
    Follows g signal id (Eval.defineAll scope params arguments)
      (Eval.defineAll scope (params.map (Token.relocate g.places))
        (arguments.map (Value.relocate g.places))) m := by
  induction params generalizing arguments m with
  | nil => exact .pure rfl
  | cons param params ih =>
    cases arguments with
    | nil => exact .pure rfl
    | cons v arguments => exact (follows_define scope _ v).bind fun _ _ _ => ih arguments

theorem follows_runAll (hrun : RunFollows g signal run run') (ss : List Stmt) :
    Follows g signal (Completion.relocate g.places) (Eval.runAll run ss)
      (Eval.runAll run' (Stmt.relocateAll g.places ss)) m := by
  induction ss generalizing m with
  | nil => exact .pure rfl
  | cons s rest ih =>
    refine (hrun s m).bind fun ended m₁ _ => ?_
    cases ended with
    | normal => exact ih
    | _ => exact .pure rfl

theorem follows_loop {condition condition' : Eval Bool} {body body' : Eval Completion}
    {step step' : Eval Unit} (hc : ∀ m, Follows g signal id condition condition' m)
    (hb : ∀ m, Follows g signal (Completion.relocate g.places) body body' m)
    (hs : ∀ m, Follows g signal id step step' m) (fuel : Nat) :
    Follows g signal (Completion.relocate g.places) (Eval.loop condition body step fuel)
      (Eval.loop condition' body' step' fuel) m := by
  induction fuel generalizing m with
  | zero => exact .outOfFuel
  | succ fuel ih =>
    refine (hc m).bind fun goesOn m₁ _ => ?_
    cases goesOn with
    | false => exact .pure rfl
    | true =>
      refine (hb m₁).bind fun ended m₂ _ => ?_
      cases ended with
      | «break» => exact .pure rfl
      | «return» v => exact .pure rfl
      | _ => exact (hs m₂).bind fun _ _ _ => ih

theorem follows_boundThis (c : Closure) :
    Follows g signal (Value.relocate g.places) (Eval.boundThis c)
      (Eval.boundThis (c.relocate g.places)) m := by
  refine .get (.pure ?_)
  have hthis : (m.replica g).scopes.getAt c.scope 0 Keyword.this.spelling =
      (m.scopes.getAt c.scope 0 Keyword.this.spelling).map (Value.relocate g.places) :=
    Scopes.getAt_map _ _ _ _ _
  show ((m.replica g).scopes.getAt c.scope 0 Keyword.this.spelling).getD .nil = _
  rw [hthis]
  cases m.scopes.getAt c.scope 0 Keyword.this.spelling <;> rfl

theorem follows_invoke (hrun : RunFollows g signal run run') (c : Closure) (arguments : List Value) :
    Follows g signal (Value.relocate g.places) (Eval.invoke run c arguments)
      (Eval.invoke run' (c.relocate g.places) (arguments.map (Value.relocate g.places))) m := by
  have hparams : (c.relocate g.places).declaration.params =
      c.declaration.params.map (Token.relocate g.places) := Function.params_relocate _ _
  have hbody : (c.relocate g.places).declaration.body = Stmt.relocateAll g.places c.declaration.body :=
    Function.body_relocate _ _
  unfold Eval.invoke
  rw [hparams, hbody]
  refine (follows_openScope c.scope).bind fun scope _ _ =>
    (follows_defineAll scope _ arguments).bind fun _ m₁ _ =>
      (Follows.within scope (follows_runAll hrun _)).bind fun ended m₂ _ => ?_
  rw [show (c.relocate g.places).isInitializer = c.isInitializer from rfl]
  split
  · exact follows_boundThis c
  · cases ended with
    | «return» v => exact .pure rfl
    | _ => exact .pure rfl

theorem follows_checkArity {needed needed' : Nat} (h : needed' = needed) (arguments : List Value)
    (paren : Token) :
    Follows g signal id (Eval.checkArity needed arguments paren)
      (Eval.checkArity needed' (arguments.map (Value.relocate g.places)) (paren.relocate g.places)) m := by
  rw [Eval.checkArity, Eval.checkArity, List.length_map, h]
  split
  · exact .pure rfl
  · exact .fail _ _ _ _

theorem follows_callRule (hrun : RunFollows g signal run run') :
    CallFollows g signal (Eval.callRule run) (Eval.callRule run') := by
  intro callee arguments paren m
  cases callee with
  | function id c =>
    exact (follows_checkArity (c.arity_relocate _) arguments paren).bind fun _ _ _ =>
      follows_invoke hrun c arguments
  | native f =>
    cases f with
    | clock => exact (follows_checkArity rfl arguments paren).bind fun _ _ _ => follows_readClock
  | «class» c =>
    refine (follows_checkArity (c.arity_relocate _) arguments paren).bind fun _ _ _ =>
      (follows_freshInstance c).bind fun this m₁ _ => ?_
    rw [c.initializer?_relocate]
    cases c.initializer? with
    | none => exact .pure rfl
    | some f =>
      exact (follows_bind f this).bind fun bound _ _ =>
        (follows_invoke hrun bound arguments).bind fun _ _ _ => .pure rfl
  | _ => exact .fail _ _ _ _

/-! ## Declarations -/

theorem follows_declareFunction (f : Function) :
    Follows g signal id (Eval.declareFunction f) (Eval.declareFunction (f.relocate g.places)) m := by
  unfold Eval.declareFunction
  rw [Function.name_relocate]
  exact .get (follows_freshObject.bind fun id _ _ =>
    follows_defineHere f.name.lexeme (.function id ⟨f, m.current, false⟩))

theorem follows_superclassValue {superclass : Option Occurrence}
    (h : ∀ use ∈ superclass, g.Finds m use) :
    Follows g signal (Option.map (ClassObject.relocate g.places)) (Eval.superclassValue superclass)
      (Eval.superclassValue (superclass.map (Occurrence.relocate g.places))) m := by
  cases superclass with
  | none => exact .pure rfl
  | some use =>
    refine (follows_read (h use rfl)).bind fun v m₁ _ => ?_
    cases v with
    | «class» c => exact .pure rfl
    | _ => exact .fail _ _ _ _

theorem follows_methodScope (superclass : Option ClassObject) :
    Follows g signal id (Eval.methodScope superclass)
      (Eval.methodScope (superclass.map (ClassObject.relocate g.places))) m := by
  refine .get ?_
  cases superclass with
  | none => exact .pure rfl
  | some parent =>
    exact (follows_openScope m.current).bind fun scope _ _ =>
      (follows_define scope _ (.class parent)).bind fun _ _ _ => .pure rfl

theorem follows_declareClass {c : Class} (h : ∀ use ∈ c.superclass, g.Finds m use) :
    Follows g signal id (Eval.declareClass c) (Eval.declareClass (c.relocate g.places)) m := by
  unfold Eval.declareClass
  rw [Class.superclass_relocate, Class.name_relocate, Class.methods_relocate]
  refine (follows_superclassValue h).bind fun superclass _ _ =>
    (follows_methodScope superclass).bind fun scope _ _ => follows_freshObject.bind fun i _ _ => ?_
  have hclass : Value.class ⟨i, c.name.lexeme, superclass.map (ClassObject.relocate g.places),
      Eval.methodTable scope (c.methods.map (Function.relocate g.places))⟩ =
        (Value.class ⟨i, c.name.lexeme, superclass, Eval.methodTable scope c.methods⟩).relocate
          g.places := by
    rw [Value.relocate, ClassObject.relocate_mk, methodTable_relocate]
  show Follows g signal id _ (Eval.defineHere c.name.lexeme (.class ⟨i, c.name.lexeme, _, _⟩)) _
  rw [id, hclass]
  exact follows_defineHere c.name.lexeme _

/-! ## Expressions and statements -/

theorem follows_optional (heval : EvalFollows g signal eval eval') (e : Option Expr) :
    Follows g signal (Value.relocate g.places) (Eval.optional eval e)
      (Eval.optional eval' (e.map (Expr.relocate g.places))) m := by
  cases e with
  | none => exact .pure rfl
  | some e => exact heval e m

theorem follows_truthy (heval : EvalFollows g signal eval eval') (e : Expr) :
    Follows g signal id (Value.truthy <$> eval e) (Value.truthy <$> eval' (e.relocate g.places)) m :=
  (heval e m).map fun v => v.truthy_relocate g.places

theorem follows_conditionOf (heval : EvalFollows g signal eval eval') (e : Option Expr) :
    Follows g signal id (Eval.conditionOf eval e)
      (Eval.conditionOf eval' (e.map (Expr.relocate g.places))) m := by
  cases e with
  | none => exact .pure rfl
  | some e => exact follows_truthy heval e

theorem follows_evaluateRule (heval : EvalFollows g signal eval eval')
    (hcall : CallFollows g signal call call') {e : Expr} (h : e.Agrees g m) :
    Follows g signal (Value.relocate g.places) (Eval.evaluateRule eval call e)
      (Eval.evaluateRule eval' call' (e.relocate g.places)) m := by
  cases e with
  | literal constant => exact .pure (constant.value_relocate g.places).symm
  | grouping inner => exact heval inner m
  | unary op operator operand =>
    exact (heval operand m).bind fun v _ _ => .ofExcept _ _ (op.apply_relocate g.places v)
  | binary left op operator right =>
    exact (heval left m).bind fun a m₁ _ => (heval right m₁).bind fun b _ _ =>
      .ofExcept _ _ (op.apply_relocate g.places a b)
  | logical left op operator right =>
    refine (heval left m).bind fun a m₁ _ => ?_
    rw [op.decidedBy_relocate]
    split
    · exact .pure rfl
    · exact heval right m₁
  | «variable» use => exact follows_read h
  | assign target e =>
    exact (heval e m).bind fun v m₁ hk => (follows_assign (Replica.Finds.kept h hk) v).bind
      fun _ _ _ => .pure rfl
  | call callee arguments paren =>
    refine (heval callee m).bind fun v m₁ _ => ?_
    rw [Expr.relocateAll_eq]
    exact (Follows.mapM heval arguments).bind fun vs m₂ _ => hcall v vs paren m₂
  | get object name => exact (heval object m).bind fun v _ _ => follows_getProperty v name
  | set object name e =>
    exact (heval object m).bind fun v _ _ => (follows_instanceOf v name).bind fun i m₂ _ =>
      (heval e m₂).bind fun w _ _ => (follows_setField i _ w).bind fun _ _ _ => .pure rfl
  | this keyword => exact follows_read h
  | super keyword method => exact follows_superMethod h method

theorem follows_executeRule (heval : EvalFollows g signal eval eval')
    (hrun : RunFollows g signal run run') (fuel : Nat) {s : Stmt} (h : s.Agrees g m) :
    Follows g signal (Completion.relocate g.places) (Eval.executeRule eval run fuel s)
      (Eval.executeRule eval' run' fuel (s.relocate g.places)) m := by
  cases s with
  | expression e => exact (heval e m).bind fun _ _ _ => .pure rfl
  | print e =>
    refine (heval e m).bind fun v _ _ => ?_
    rw [Value.text_relocate]
    exact (follows_print v.text).bind fun _ _ _ => .pure rfl
  | var name initializer =>
    exact (follows_optional heval initializer).bind fun v _ _ =>
      (follows_defineHere _ v).bind fun _ _ _ => .pure rfl
  | block body =>
    exact .get ((follows_openScope m.current).bind fun scope _ _ =>
      Follows.within scope (follows_runAll hrun body))
  | ifElse condition thenBranch elseBranch =>
    refine (heval condition m).bind fun v m₁ _ => ?_
    rw [Value.truthy_relocate]
    split
    · exact hrun thenBranch m₁
    · cases elseBranch with
      | none => exact .pure rfl
      | some s => exact hrun s m₁
  | whileLoop condition body =>
    exact follows_loop (fun _ => follows_truthy heval condition) (hrun body) (fun _ => .pure rfl) fuel
  | forLoop initializer condition increment body =>
    refine .get ((follows_openScope m.current).bind fun scope m₁ _ => Follows.within scope ?_)
    have hstep (m : Machine) : Follows g signal id (do let _ ← Eval.optional eval increment)
        (do let _ ← Eval.optional eval' (increment.map (Expr.relocate g.places))) m :=
      (follows_optional heval increment).map fun _ => rfl
    have hloop {m : Machine} := follows_loop (m := m)
      (fun _ => follows_conditionOf heval condition) (hrun body) hstep fuel
    cases initializer with
    | none => exact hloop
    | some s => exact (hrun s _).bind fun _ _ _ => hloop
  | function declaration => exact (follows_declareFunction declaration).bind fun _ _ _ => .pure rfl
  | «class» declaration => exact (follows_declareClass h).bind fun _ _ _ => .pure rfl
  | «return» keyword value => exact (follows_optional heval value).bind fun v _ _ => .pure rfl
  | «break» keyword => exact .pure rfl
  | «continue» keyword => exact .pure rfl

/-! ## Runs -/

theorem follows_runs (g : Replica) (signal : Interrupt) (fuel : Nat) :
    EvalFollows g signal (Eval.watchedEvaluate (g.watch signal) fuel) (Eval.evaluate fuel) ∧
      RunFollows g signal (Eval.watchedExecute (g.watch signal) fuel) (Eval.execute fuel) ∧
      CallFollows g signal (Eval.watchedCall (g.watch signal) fuel) (Eval.call fuel) := by
  induction fuel with
  | zero => exact ⟨fun _ _ => .outOfFuel, fun _ _ => .outOfFuel, fun _ _ _ _ => .outOfFuel⟩
  | succ fuel ih =>
    obtain ⟨heval, hrun, hcall⟩ := ih
    exact ⟨fun e m => .watched fun h => follows_evaluateRule heval hcall h,
      fun s m => .watched fun h => follows_executeRule heval hrun fuel h,
      fun callee arguments paren m => .watched fun _ => follows_callRule hrun callee arguments paren m⟩

end Lox
