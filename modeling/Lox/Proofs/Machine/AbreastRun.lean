import Lox.Proofs.Machine.Abreast
import Lox.Proofs.Session.Discipline

/-!
# Whole runs of a program and of its while form

The rules of evaluation are made up of steps that go on abreast. The one rule that differs is that
of a `for` statement in its while form.

* `EvalAbreast`, `RunAbreast`, `CallAbreast`: the parts of a rule go on abreast;
* `abreast_invoke`, `abreast_callRule`, …: calls, properties and declarations;
* `abreast_evaluateRule`, `abreast_executeRule`: the rules of evaluation;
* `Eval.execute_not_continue`, `Eval.execute_clause`: how the parts of a loop can end;
* `Eval.round`, `Pace.Allows`: a round of a loop, and how deep the two runs may be;
* **`abreast_whileForm`**: a `for` statement and its while form;
* **`abreast_runs`**: so whole runs go on abreast.
-/

namespace Lox

section Parts

variable (T T' : Distances) (pace : Pace)

/-- The evaluations of an expression go on abreast. -/
def EvalAbreast (eval eval' : Expr → Eval Value) : Prop :=
  ∀ {W : Pairing} {pads i k e}, W pads i k → Expr.Moves T T' pads e →
    Abreast T T' pace W i k (Value.Pairs T T') (eval e) (eval' e)

/-- The runs of a statement and of its while form go on abreast. -/
def RunAbreast (run run' : Stmt → Eval Completion) : Prop :=
  ∀ {W : Pairing} {pads i k s t}, W pads i k → Stmt.Matches T T' pads s t →
    Abreast T T' pace W i k (Completion.Pairs T T') (run s) (run' t)

/-- The calls of corresponding values go on abreast. -/
def CallAbreast (call call' : Value → List Value → Token → Eval Value) : Prop :=
  ∀ {W : Pairing} {i k v v' vs vs'} (paren : Token), Value.Pairs T T' W v v' →
    List.Forall₂ (Value.Pairs T T' W) vs vs' →
    Abreast T T' pace W i k (Value.Pairs T T') (call v vs paren) (call' v' vs' paren)

end Parts

variable {T T' : Distances} {pace : Pace} {W : Pairing} {pads : List Nat} {i k : ScopeId}
  {eval eval' : Expr → Eval Value} {run run' : Stmt → Eval Completion}
  {call call' : Value → List Value → Token → Eval Value}

/-! ## Methods and properties -/

theorem abreast_bind {c c' : Closure} (hc : Closure.PairsMethod T T' W c c') {v v' : Value}
    (hv : Value.Pairs T T' W v v') :
    Abreast T T' pace W i k (Closure.Pairs T T') (Eval.bind c v) (Eval.bind c' v') := by
  obtain ⟨hs, hf⟩ := hc
  refine (abreast_openScope hs).bind fun W₁ hW scope scope' hscope => ?_
  refine (abreast_define hscope _ (hv.mono hW)).bind fun W₂ hW₂ _ _ _ => .pure fun W₃ hW₃ => ?_
  exact .mk (hW₃ _ _ _ (hW₂ _ _ _ hscope)) hf fun _ => ⟨_, rfl⟩

theorem abreast_bindValue {c c' : Closure} (hc : Closure.PairsMethod T T' W c c') {v v' : Value}
    (hv : Value.Pairs T T' W v v') :
    Abreast T T' pace W i k (Value.Pairs T T') (Eval.bindValue c v) (Eval.bindValue c' v') := by
  refine (abreast_bind hc hv).bind fun W₁ _ b b' hb => ?_
  refine abreast_freshObject.bind fun W₂ hW₂ id _ hid => .pure fun W₃ hW₃ => ?_
  exact hid ▸ .function id (hb.mono (hW₂.trans hW₃))

theorem abreast_getProperty {v v' : Value} (hv : Value.Pairs T T' W v v') (name : Token) :
    Abreast T T' pace W i k (Value.Pairs T T') (Eval.getProperty v name)
      (Eval.getProperty v' name) := by
  cases hv with
  | @«instance» id c c' hc =>
    refine .get fun W₁ hW m m' hj => ?_
    have hfield := hj.field id name.lexeme
    have hmethod := hc.method? name.lexeme
    generalize m.fields[id]?.bind (·.get? name.lexeme) = f,
      m'.fields[id]?.bind (·.get? name.lexeme) = f' at hfield
    cases hfield with
    | some hf => exact .pure fun _ hW₁ => hf.mono hW₁
    | none =>
      dsimp only
      generalize c.method? name.lexeme = method, c'.method? name.lexeme = method' at hmethod
      cases hmethod with
      | some hm => exact abreast_bindValue (hm.mono hW) (.instance id (hc.mono hW))
      | none => exact .fail _ _
  | _ => exact .fail _ _

theorem abreast_instanceOf {v v' : Value} (hv : Value.Pairs T T' W v v') (name : Token) :
    Abreast T T' pace W i k (fun _ => Eq) (Eval.instanceOf v name) (Eval.instanceOf v' name) := by
  cases hv with
  | «instance» id hc => exact .pure fun _ _ => rfl
  | _ => exact .fail _ _

theorem abreast_superMethod (hp : W pads i k) {keyword : Occurrence}
    (hk : Mark.Moves T T' pads (.super keyword)) (method : Token) :
    Abreast T T' pace W i k (Value.Pairs T T') (Eval.superMethod keyword method)
      (Eval.superMethod keyword method) := by
  obtain ⟨d, d', hd, hd', hinner, houter⟩ := hk
  refine .get fun W₁ hW m m' hj => ?_
  have hsuper := hj.links.getAt houter (hW _ _ _ hp) Keyword.super.spelling
  have hthis := hj.links.getAt hinner (hW _ _ _ hp) Keyword.this.spelling
  dsimp only
  rw [hj.distances, hj.distances', hd, hd', hj.current, hj.current']
  dsimp only
  generalize m.scopes.getAt i (d + 1) Keyword.super.spelling = v,
    m'.scopes.getAt k (d' + 1) Keyword.super.spelling = v' at hsuper
  cases hsuper with
  | none => exact .fail _ _
  | some hv =>
    cases hv with
    | @«class» c c' hc =>
      dsimp only
      generalize m.scopes.getAt i d Keyword.this.spelling = this,
        m'.scopes.getAt k d' Keyword.this.spelling = this' at hthis
      cases hthis with
      | none => exact .fail _ _
      | some hthis =>
        have hmethod := hc.method? method.lexeme
        dsimp only
        generalize c.method? method.lexeme = found, c'.method? method.lexeme = found' at hmethod
        cases hmethod with
        | some hm => exact abreast_bindValue hm hthis
        | none => exact .fail _ _
    | _ => exact .fail _ _

/-! ## Calls -/

theorem abreast_defineAll {scope scope' : ScopeId} (hp : W (0 :: pads) scope scope')
    (params : List Token) {vs vs' : List Value} (hvs : List.Forall₂ (Value.Pairs T T' W) vs vs') :
    Abreast T T' pace W i k (fun _ => Eq) (Eval.defineAll scope params vs)
      (Eval.defineAll scope' params vs') := by
  induction params generalizing W vs vs' with
  | nil => exact .pure fun _ _ => rfl
  | cons param params ih =>
    cases hvs with
    | nil => exact .pure fun _ _ => rfl
    | cons hv hvs =>
      exact (abreast_define hp _ hv).bind fun W₁ hW _ _ _ =>
        ih (hW _ _ _ hp) (hvs.imp fun _ _ h => h.mono hW)

theorem abreast_runAll (hrun : RunAbreast T T' pace run run') (hp : W pads i k)
    {ss ts : List Stmt} (h : Stmt.MatchesAll T T' pads ss ts) :
    Abreast T T' pace W i k (Completion.Pairs T T') (Eval.runAll run ss) (Eval.runAll run' ts) := by
  induction ss generalizing W ts with
  | nil =>
    cases h
    exact .pure fun _ _ => .normal
  | cons s rest ih =>
    cases h with
    | cons hs hrest =>
      refine (hrun hp hs).bind fun W₁ hW ended ended' he => ?_
      cases he with
      | normal => exact ih (hW _ _ _ hp) hrest
      | «return» hv => exact .pure fun _ hW₁ => .return (hv.mono hW₁)
      | «break» => exact .pure fun _ _ => .break
      | «continue» => exact .pure fun _ _ => .continue

theorem abreast_boundThis {outer : List Nat} {c c' : Closure}
    (hp : W (0 :: outer) c.scope c'.scope) :
    Abreast T T' pace W i k (Value.Pairs T T') (Eval.boundThis c) (Eval.boundThis c') := by
  refine .get fun W₁ hW m m' hj => ?_
  have hthis := hj.links.getAt .here (hW _ _ _ hp) Keyword.this.spelling
  generalize m.scopes.getAt c.scope 0 Keyword.this.spelling = v,
    m'.scopes.getAt c'.scope 0 Keyword.this.spelling = v' at hthis
  cases hthis with
  | none => exact .pure fun _ _ => .nil
  | some hv => exact .pure fun _ hW₁ => hv.mono hW₁

theorem abreast_invoke (hrun : RunAbreast T T' pace run run') {c c' : Closure}
    (hc : Closure.Pairs T T' W c c') {vs vs' : List Value}
    (hvs : List.Forall₂ (Value.Pairs T T' W) vs vs') :
    Abreast T T' pace W i k (Value.Pairs T T') (Eval.invoke run c vs)
      (Eval.invoke run' c' vs') := by
  obtain @⟨pads, f, f', scope, scope', isInitializer, hs, hf, hi⟩ := hc
  unfold Eval.invoke
  dsimp only
  rw [hf.params]
  refine (abreast_openScope hs).bind fun W₁ hW inner inner' hinner => ?_
  refine (abreast_defineAll hinner _ (hvs.imp fun _ _ h => h.mono hW)).bind fun W₂ hW₂ _ _ _ => ?_
  refine (Abreast.within (abreast_runAll hrun (hW₂ _ _ _ hinner) hf.body)).bind
    fun W₃ hW₃ ended ended' he => ?_
  split
  · rename_i hinit
    obtain ⟨outer, rfl⟩ := hi hinit
    exact abreast_boundThis (hW₃ _ _ _ (hW₂ _ _ _ (hW _ _ _ hs)))
  · cases he with
    | «return» hv => exact .pure fun _ hW₄ => hv.mono hW₄
    | _ => exact .pure fun _ _ => .nil

theorem abreast_checkArity {needed needed' : Nat} (h : needed' = needed) {vs vs' : List Value}
    (hvs : List.Forall₂ (Value.Pairs T T' W) vs vs') (paren : Token) :
    Abreast T T' pace W i k (fun _ => Eq) (Eval.checkArity needed vs paren)
      (Eval.checkArity needed' vs' paren) := by
  rw [Eval.checkArity, Eval.checkArity, h, hvs.length_eq]
  split
  · exact .pure fun _ _ => rfl
  · exact .fail _ _

theorem abreast_callRule (hrun : RunAbreast T T' pace run run') :
    CallAbreast T T' pace (Eval.callRule run) (Eval.callRule run') := by
  intro W i k v v' vs vs' paren hv hvs
  cases hv with
  | function id hc =>
    exact (abreast_checkArity hc.arity hvs paren).bind fun W₁ hW _ _ _ =>
      abreast_invoke hrun (hc.mono hW) (hvs.imp fun _ _ h => h.mono hW)
  | native f =>
    cases f with
    | clock => exact (abreast_checkArity rfl hvs paren).bind fun _ _ _ _ _ => abreast_readClock
  | @«class» c c' hc =>
    refine (abreast_checkArity hc.arity hvs paren).bind fun W₁ hW _ _ _ => ?_
    refine (abreast_freshInstance (hc.mono hW)).bind fun W₂ hW₂ this this' hthis => ?_
    have hinit := (hc.mono (hW.trans hW₂)).method? initializerName
    unfold ClassObject.initializer?
    generalize c.method? initializerName = f, c'.method? initializerName = f' at hinit
    cases hinit with
    | none => exact .pure fun _ hW₃ => hthis.mono hW₃
    | some hf =>
      refine (abreast_bind hf hthis).bind fun W₃ hW₃ bound bound' hbound => ?_
      refine (abreast_invoke hrun hbound (hvs.imp fun _ _ h =>
        h.mono ((hW.trans hW₂).trans hW₃))).bind fun W₄ hW₄ _ _ _ => .pure fun W₅ hW₅ => ?_
      exact hthis.mono ((hW₃.trans hW₄).trans hW₅)
  | _ => exact .fail _ _

/-! ## Declarations -/

theorem abreast_declareFunction (hp : W (0 :: pads) i k) {f f' : Function}
    (hf : Function.Matches T T' (0 :: pads) f f') :
    Abreast T T' pace W i k (fun _ => Eq) (Eval.declareFunction f) (Eval.declareFunction f') := by
  unfold Eval.declareFunction
  rw [hf.name]
  refine .get fun W₁ hW m m' hj => abreast_freshObject.bind fun W₂ hW₂ id _ hid => ?_
  rw [← hid, hj.current, hj.current']
  have hscope := hW₂ _ _ _ (hW _ _ _ hp)
  exact abreast_defineHere hscope _ (.function id (.mk hscope hf nofun))

theorem abreast_superclassValue (hp : W pads i k) {superclass : Option Occurrence}
    (hu : ∀ use ∈ superclass, Mark.Moves T T' pads (.read use)) :
    Abreast T T' pace W i k
      (fun W c c' => Option.Rel (ClassObject.Pairs T T' W) c c' ∧ c.isSome = superclass.isSome)
      (Eval.superclassValue superclass) (Eval.superclassValue superclass) := by
  cases superclass with
  | none => exact .pure fun _ _ => ⟨.none, rfl⟩
  | some use =>
    refine (abreast_read hp (hu use rfl)).bind fun W₁ _ v v' hv => ?_
    cases hv with
    | «class» hc => exact .pure fun _ hW => ⟨.some (hc.mono hW), rfl⟩
    | _ => exact .fail _ _

theorem abreast_methodScope (hp : W (0 :: pads) i k) {superclass : Option Occurrence}
    {c c' : Option ClassObject} (hc : Option.Rel (ClassObject.Pairs T T' W) c c')
    (hs : c.isSome = superclass.isSome) :
    Abreast T T' pace W i k
      (fun W scope scope' => ∃ outer, classPads superclass (0 :: pads) = 0 :: outer ∧
        W outer scope scope')
      (Eval.methodScope c) (Eval.methodScope c') := by
  refine .get fun W₁ hW m m' hj => ?_
  rw [hj.current, hj.current']
  cases hc with
  | none =>
    cases superclass with
    | none => exact .pure fun _ hW₁ => ⟨_, rfl, hW₁ _ _ _ (hW _ _ _ hp)⟩
    | some use => cases hs
  | some hc =>
    cases superclass with
    | none => cases hs
    | some use =>
      refine (abreast_openScope (hW _ _ _ hp)).bind fun W₂ hW₂ scope scope' hscope => ?_
      refine (abreast_define hscope _ (.class (hc.mono (hW.trans hW₂)))).bind fun W₃ hW₃ _ _ _ =>
        .pure fun W₄ hW₄ => ⟨_, rfl, hW₄ _ _ _ (hW₃ _ _ _ hscope)⟩

theorem abreast_declareClass (hp : W (0 :: pads) i k) {name : Token}
    {superclass : Option Occurrence} {methods methods' : List Function} {span : Position}
    (hu : ∀ use ∈ superclass, Mark.Moves T T' (0 :: pads) (.read use))
    (hm : Function.MatchesAll T T' (classPads superclass (0 :: pads)) methods methods') :
    Abreast T T' pace W i k (fun _ => Eq) (Eval.declareClass ⟨name, superclass, methods, span⟩)
      (Eval.declareClass ⟨name, superclass, methods', span⟩) := by
  refine (abreast_superclassValue hp hu).bind fun W₁ hW c c' ⟨hc, hsome⟩ => ?_
  refine (abreast_methodScope (hW _ _ _ hp) hc hsome).bind fun W₂ hW₂ scope scope' hscope => ?_
  refine abreast_freshObject.bind fun W₃ hW₃ id id' hid => ?_
  obtain ⟨outer, hpads, hscope⟩ := hscope
  rw [hpads] at hm
  have htable := methodTable_pairs (hW₃ _ _ _ hscope) hm
  refine abreast_defineHere (hW₃ _ _ _ (hW₂ _ _ _ (hW _ _ _ hp))) _ (.class ?_)
  rw [← hid]
  cases hc with
  | none => exact .base htable
  | some hc => exact .derived (hc.mono (hW₂.trans hW₃)) htable

/-! ## Expressions -/

theorem abreast_optional (heval : EvalAbreast T T' pace eval eval') (hp : W pads i k)
    {e : Option Expr} (he : ∀ x ∈ e, Expr.Moves T T' pads x) :
    Abreast T T' pace W i k (Value.Pairs T T') (Eval.optional eval e) (Eval.optional eval' e) := by
  cases e with
  | none => exact .pure fun _ _ => .nil
  | some e => exact heval hp (he e rfl)

theorem abreast_truthy (heval : EvalAbreast T T' pace eval eval') (hp : W pads i k) {e : Expr}
    (he : e.Moves T T' pads) :
    Abreast T T' pace W i k (fun _ => Eq) (Value.truthy <$> eval e) (Value.truthy <$> eval' e) :=
  (heval hp he).map fun _ _ _ hv => hv.truthy.symm

theorem abreast_conditionOf (heval : EvalAbreast T T' pace eval eval') (hp : W pads i k)
    {e : Option Expr} (he : ∀ x ∈ e, Expr.Moves T T' pads x) :
    Abreast T T' pace W i k (fun _ => Eq) (Eval.conditionOf eval e) (Eval.conditionOf eval' e) := by
  cases e with
  | none => exact .pure fun _ _ => rfl
  | some e => exact abreast_truthy heval hp (he e rfl)

theorem Expr.moves_of_mem {es : List Expr} (h : ∀ m ∈ Expr.marksAll es, m.Moves T T' pads) :
    ∀ e ∈ es, Expr.Moves T T' pads e := by
  induction es with
  | nil => exact fun _ he => absurd he List.not_mem_nil
  | cons e rest ih =>
    obtain ⟨he, hrest⟩ := List.forall_mem_append.mp h
    exact List.forall_mem_cons.mpr ⟨he, ih hrest⟩

theorem abreast_evaluateRule (heval : EvalAbreast T T' pace eval eval')
    (hcall : CallAbreast T T' pace call call') :
    EvalAbreast T T' pace (Eval.evaluateRule eval call) (Eval.evaluateRule eval' call') := by
  intro W pads i k e hp he
  cases e with
  | literal constant => exact .pure fun _ _ => constant.value_pairs
  | grouping inner => exact heval hp he
  | unary op operator operand =>
    exact (heval hp (e := operand) he).bind fun _ _ _ _ hv => .ofExcept (op.apply_pairs hv)
  | binary left op operator right =>
    obtain ⟨hl, hr⟩ := List.forall_mem_append.mp he
    refine (heval hp hl).bind fun W₁ hW a a' ha => ?_
    refine (heval (hW _ _ _ hp) hr).bind fun W₂ hW₂ b b' hb => .ofExcept ?_
    exact op.apply_pairs (ha.mono hW₂) hb
  | logical left op operator right =>
    obtain ⟨hl, hr⟩ := List.forall_mem_append.mp he
    refine (heval hp hl).bind fun W₁ hW a a' ha => ?_
    rw [op.decidedBy_pairs ha]
    split
    · exact .pure fun _ hW₁ => ha.mono hW₁
    · exact heval (hW _ _ _ hp) hr
  | «variable» use => exact abreast_read hp (he _ List.mem_cons_self)
  | assign target e =>
    have hvalue := (List.forall_mem_cons.mp (List.forall_mem_cons.mp he).2).2
    refine (heval hp hvalue).bind fun W₁ hW v v' hv => ?_
    refine (abreast_assign (hW _ _ _ hp) (he _ List.mem_cons_self) hv).bind fun W₂ hW₂ _ _ _ =>
      .pure fun _ hW₃ => hv.mono (hW₂.trans hW₃)
  | call callee arguments paren =>
    obtain ⟨hc, ha⟩ := List.forall_mem_append.mp he
    refine (heval hp hc).bind fun W₁ hW v v' hv => ?_
    refine (Abreast.mapM fun e he W₂ hW₂ => heval (hW₂ _ _ _ (hW _ _ _ hp))
      (Expr.moves_of_mem ha e he)).bind fun W₂ hW₂ vs vs' hvs => ?_
    exact hcall paren (hv.mono hW₂) hvs
  | get object name =>
    exact (heval hp (e := object) he).bind fun _ _ _ _ hv => abreast_getProperty hv name
  | set object name e =>
    obtain ⟨ho, hv⟩ := List.forall_mem_append.mp he
    refine (heval hp ho).bind fun W₁ hW o o' hobject => ?_
    refine (abreast_instanceOf hobject name).bind fun W₂ hW₂ id id' hid => ?_
    refine (heval (hW₂ _ _ _ (hW _ _ _ hp)) hv).bind fun W₃ hW₃ v v' hv => ?_
    rw [← hid]
    exact (abreast_setField id _ hv).bind fun W₄ hW₄ _ _ _ => .pure fun _ hW₅ =>
      hv.mono (hW₄.trans hW₅)
  | this keyword => exact abreast_read hp (he _ List.mem_cons_self)
  | super keyword method =>
    exact abreast_superMethod hp (he _ (List.mem_cons_of_mem _ List.mem_cons_self)) method

/-! ## Loops -/

/-- One round of a loop behind its condition: the body, and then the step unless the body ended the
loop. -/
def Eval.round (body : Eval Completion) (step : Eval Unit) : Eval Completion := do
  match ← body with
  | .break => return .break
  | .return value => return .return value
  | _ =>
    step
    return .normal

/-- A loop may take its step as the last part of its body. -/
theorem Eval.loop_eq_round (condition : Eval Bool) (body : Eval Completion) (step : Eval Unit)
    (fuel : Nat) : Eval.loop condition body step fuel =
      Eval.loop condition (Eval.round body step) (pure ()) fuel := by
  induction fuel with
  | zero => rfl
  | succ fuel ih =>
    rw [Eval.loop, Eval.loop]
    refine congrArg (condition >>= ·) (funext fun goesOn => ?_)
    cases goesOn with
    | false => rfl
    | true =>
      rw [if_pos rfl, if_pos rfl, Eval.round, bind_assoc]
      refine congrArg (body >>= ·) (funext fun ended => ?_)
      cases ended with
      | «break» => rfl
      | «return» v => rfl
      | _ => rw [bind_assoc, ih]; rfl

theorem Eval.runAll_singleton (run : Stmt → Eval Completion) (s : Stmt) :
    Eval.runAll run [s] = run s := by
  rw [Eval.runAll]
  refine (bind_congr fun ended => ?_).trans (bind_pure (run s))
  cases ended <;> rfl

/-! ## How statements end -/

theorem Stmt.continues_of_mem {ss : List Stmt} (h : Stmt.continuesAny ss = false) :
    ∀ s ∈ ss, s.continues = false := by
  induction ss with
  | nil => exact fun _ hs => absurd hs List.not_mem_nil
  | cons s rest ih =>
    obtain ⟨hs, hrest⟩ := Bool.or_eq_false_iff.mp h
    exact List.forall_mem_cons.mpr ⟨hs, ih hrest⟩

theorem Eval.runAll_not_continue {ss : List Stmt}
    (h : ∀ s ∈ ss, ∀ m, Ensures (run s) m (fun ended _ => ended ≠ .continue) fun _ _ => True)
    (m : Machine) :
    Ensures (Eval.runAll run ss) m (fun ended _ => ended ≠ .continue) fun _ _ => True := by
  induction ss generalizing m with
  | nil => exact ensures_pure.mpr nofun
  | cons s rest ih =>
    refine (h s List.mem_cons_self m).bind (fun ended m₁ _ hne => ?_) fun _ _ _ => trivial
    cases ended with
    | normal => exact ih (fun s hs => h s (List.mem_cons_of_mem _ hs)) m₁
    | _ => exact ensures_pure.mpr hne

/-- **A statement without a `continue` of its own never ends with one.** -/
theorem Eval.execute_not_continue (fuel : Nat) {s : Stmt} (hs : s.continues = false) (m : Machine) :
    Ensures (Eval.execute fuel s) m (fun ended _ => ended ≠ .continue) fun _ _ => True := by
  induction fuel generalizing s m with
  | zero => trivial
  | succ fuel ih =>
    cases s with
    | expression _ | function _ | «class» _ | «return» _ _ =>
      exact ensures_bind_of_forall fun _ _ => ensures_pure.mpr nofun
    | print _ | var _ _ =>
      exact ensures_bind_of_forall fun _ _ => ensures_bind_of_forall fun _ _ =>
        ensures_pure.mpr nofun
    | block body =>
      refine ensures_bind_of_forall fun m₁ m₂ => ensures_bind_of_forall fun scope m₃ => ?_
      exact ensures_within (runAll_not_continue fun s h m => ih (Stmt.continues_of_mem hs s h) m)
    | ifElse condition thenBranch elseBranch =>
      obtain ⟨ht, he⟩ := Bool.or_eq_false_iff.mp hs
      refine ensures_bind_of_forall fun v m₁ => ?_
      split
      · exact ih ht m₁
      · cases elseBranch with
        | none => exact ensures_pure.mpr nofun
        | some s => exact ih he m₁
    | whileLoop _ _ | forLoop _ _ _ _ =>
      refine (execute_loop_ends rfl (fuel + 1) m).mono (fun ended _ _ h => ?_) fun _ _ h => h
      rintro rfl
      exact h
    | «break» t => exact ensures_pure.mpr nofun
    | «continue» t => cases hs

theorem Eval.execute_clause (fuel : Nat) {s : Stmt} (hs : s.isClause = true) (m : Machine) :
    Ensures (Eval.execute fuel s) m (fun ended _ => ended = .normal) fun _ _ => True := by
  cases fuel with
  | zero => trivial
  | succ fuel =>
    cases s with
    | var name e =>
      exact ensures_bind_of_forall fun _ _ => ensures_bind_of_forall fun _ _ => ensures_pure.mpr rfl
    | expression e => exact ensures_bind_of_forall fun _ _ => ensures_pure.mpr rfl
    | _ => cases hs

/-! ## How deep the runs are -/

namespace Pace

/-- How deep the program and its while form may be, so that the run that may be the deeper one never
reaches its bound first. The while form of a `for` statement takes up to `spare` levels more. -/
def Allows (spare : Nat) : Pace → Nat → Nat → Prop
  | ahead, n, n' => 4 * n + spare ≤ n'
  | behind, n, n' => n' ≤ n

theorem Allows.free {spare n n' : Nat} (h : pace.Allows spare n n') : pace.Allows 0 n n' := by
  cases pace <;> simp only [Allows] at h ⊢ <;> omega

theorem Allows.succ {n n' : Nat} (h : pace.Allows 0 (n + 1) (n' + 1)) : pace.Allows 3 n n' := by
  cases pace <;> simp only [Allows] at h ⊢ <;> omega

theorem Allows.inner {spare n n' : Nat} (h : pace.Allows (spare + 1) n (n' + 1)) :
    pace.Allows spare n n' := by
  cases pace <;> simp only [Allows] at h ⊢ <;> omega

theorem Allows.eq_behind {spare n : Nat} (h : pace.Allows spare n 0) (hpos : 0 < n + spare) :
    pace = .behind := by
  cases pace with
  | ahead =>
    simp only [Allows] at h
    omega
  | behind => rfl

theorem Allows.of_zero {n' : Nat} (h : pace.Allows 0 0 n') :
    pace = .ahead ∨ n' = 0 ∧ pace = .behind := by
  cases pace with
  | ahead => exact .inl rfl
  | behind => exact .inr ⟨Nat.le_zero.mp h, rfl⟩

end Pace

theorem abreast_outOfFuel {α β : Type} {R : Pairing → α → β → Prop} (h : pace = .behind)
    (x : Eval α) : Abreast T T' pace W i k R x Eval.outOfFuel :=
  fun _ _ _ _ _ => .lowered h

/-- A run without depth goes on abreast with a run of the while form. -/
theorem abreast_zero {α β : Type} {R : Pairing → α → β → Prop} {n' : Nat} (h : pace.Allows 0 0 n')
    {y : Nat → Eval β} (hy : y 0 = Eval.outOfFuel) :
    Abreast T T' pace W i k R (Eval.outOfFuel : Eval α) (y n') := by
  obtain rfl | ⟨rfl, hpace⟩ := h.of_zero
  · exact fun _ _ _ _ _ => .original rfl
  · rw [hy]
    exact abreast_outOfFuel hpace _

theorem abreast_loop {condition condition' : Eval Bool} {body body' : Eval Completion}
    (hc : Abreast T T' pace W i k (fun _ => Eq) condition condition')
    (hb : Abreast T T' pace W i k (Completion.Pairs T T') body body') {n n' : Nat}
    (h : pace.Allows 0 n n') :
    Abreast T T' pace W i k (Completion.Pairs T T') (Eval.loop condition body (pure ()) n)
      (Eval.loop condition' body' (pure ()) n') := by
  induction n generalizing n' W with
  | zero => exact abreast_zero (y := Eval.loop condition' body' (pure ())) h rfl
  | succ n ih =>
    cases n' with
    | zero => exact abreast_outOfFuel (h.eq_behind (Nat.succ_pos _)) _
    | succ n' =>
      refine hc.bind fun W₁ hW goesOn _ hgoes => ?_
      cases hgoes
      cases goesOn with
      | false => exact .pure fun _ _ => .normal
      | true =>
        refine (hb.mono hW).bind fun W₂ hW₂ ended ended' he => ?_
        have hrest := ih (hc.mono (hW.trans hW₂)) (hb.mono (hW.trans hW₂)) h.succ.free
        cases he with
        | «break» => exact .pure fun _ _ => .normal
        | «return» hv => exact .pure fun _ hW₃ => .return (hv.mono hW₃)
        | _ => exact (Abreast.pure fun _ _ => rfl).bind fun W₃ hW₃ _ _ _ => hrest.mono hW₃

theorem abreast_round {body body' : Eval Completion} {step step' : Eval Unit}
    (hb : Abreast T T' pace W i k (Completion.Pairs T T') body body')
    (hs : Abreast T T' pace W i k (fun _ => Eq) step step') :
    Abreast T T' pace W i k (Completion.Pairs T T') (Eval.round body step)
      (Eval.round body' step') := by
  refine hb.bind fun W₁ hW ended ended' he => ?_
  cases he with
  | «break» => exact .pure fun _ _ => .break
  | «return» hv => exact .pure fun _ hW₃ => .return (hv.mono hW₃)
  | _ => exact (hs.mono hW).bind fun _ _ _ _ _ => .pure fun _ _ => .normal

/-! ## Statements -/

theorem abreast_block (hrun : RunAbreast T T' pace run run') (hp : W pads i k)
    {body body' : List Stmt} (hb : Stmt.MatchesAll T T' (0 :: pads) body body') {n n' : Nat} :
    Abreast T T' pace W i k (Completion.Pairs T T') (Eval.executeRule eval run n (.block body))
      (Eval.executeRule eval' run' n' (.block body')) := by
  refine .get fun W₁ hW m m' hj => ?_
  rw [hj.current, hj.current']
  exact (abreast_openScope (hW _ _ _ hp)).bind fun W₂ _ scope scope' hs =>
    .within (abreast_runAll hrun hs hb)

theorem abreast_step (heval : EvalAbreast T T' pace eval eval') (hp : W pads i k)
    {increment : Option Expr} (hs : ∀ e ∈ increment, Expr.Moves T T' pads e) :
    Abreast T T' pace W i k (fun _ => Eq) (do let _ ← Eval.optional eval increment)
      (do let _ ← Eval.optional eval' increment) :=
  (abreast_optional heval hp hs).bind fun _ _ _ _ _ => .pure fun _ _ => rfl

theorem abreast_forLoop (heval : EvalAbreast T T' pace eval eval')
    (hrun : RunAbreast T T' pace run run') (hp : W pads i k) {initializer : Option Stmt}
    {condition increment : Option Expr} {body body' : Stmt}
    (hi : ∀ s ∈ initializer, Stmt.Matches T T' (0 :: pads) s s)
    (hc : ∀ e ∈ condition, Expr.Moves T T' (0 :: pads) e)
    (hs : ∀ e ∈ increment, Expr.Moves T T' (0 :: pads) e)
    (hb : Stmt.Matches T T' (0 :: pads) body body') {n n' : Nat} (hn : pace.Allows 0 n n') :
    Abreast T T' pace W i k (Completion.Pairs T T')
      (Eval.executeRule eval run n (.forLoop initializer condition increment body))
      (Eval.executeRule eval' run' n' (.forLoop initializer condition increment body')) := by
  refine .get fun W₁ hW m m' hj => ?_
  rw [hj.current, hj.current']
  refine (abreast_openScope (hW _ _ _ hp)).bind fun W₂ _ scope scope' hscope => .within ?_
  have hloop {W₃ : Pairing} (hW₃ : W₂ ≤ W₃) : Abreast T T' pace W₃ scope scope'
      (Completion.Pairs T T')
      (Eval.loop (Eval.conditionOf eval condition) (run body)
        (do let _ ← Eval.optional eval increment) n)
      (Eval.loop (Eval.conditionOf eval' condition) (run' body')
        (do let _ ← Eval.optional eval' increment) n') := by
    rw [Eval.loop_eq_round (Eval.conditionOf eval condition),
      Eval.loop_eq_round (Eval.conditionOf eval' condition)]
    have hinner := hW₃ _ _ _ hscope
    exact abreast_loop (abreast_conditionOf heval hinner hc)
      (abreast_round (hrun hinner hb) (abreast_step heval hinner hs)) hn
  cases initializer with
  | none => exact hloop (le_refl _)
  | some s => exact (hrun hscope (hi s rfl)).bind fun W₃ hW₃ _ _ _ => hloop hW₃

section WhileForm

variable {n n' : Nat} {initializer : Option Stmt} {condition increment : Option Expr}
  {body body' : Stmt}
  (hruns : ∀ n', pace.Allows 0 n n' → EvalAbreast T T' pace (Eval.evaluate n) (Eval.evaluate n') ∧
    RunAbreast T T' pace (Eval.execute n) (Eval.execute n'))

include hruns

theorem abreast_lastStep (hp : W pads i k) (hs : ∀ e ∈ increment, Expr.Moves T T' pads e)
    (hn : pace.Allows 1 n n') :
    Abreast T T' pace W i k (Completion.Pairs T T')
      (do
        (do let _ ← Eval.optional (Eval.evaluate n) increment)
        return .normal)
      (Eval.runAll (Eval.execute n') (increment.toList.map .expression)) := by
  cases increment with
  | none => exact .pure fun _ _ => .normal
  | some e =>
    cases n' with
    | zero => exact abreast_outOfFuel (hn.eq_behind (Nat.succ_pos _)) _
    | succ n' =>
      have hlast : Abreast T T' pace W i k (fun _ _ ended => ended = .normal)
          (do let _ ← Eval.evaluate n e) (Eval.execute (n' + 1) (.expression e)) :=
        ((hruns n' hn.inner).1 hp (hs e rfl)).bind fun _ _ _ _ _ => .pure fun _ _ => rfl
      refine hlast.bind fun W₁ _ _ ended he => ?_
      rw [he]
      exact .pure fun _ _ => .normal

theorem abreast_whileBody (hp : W (0 :: pads) i k)
    (hs : ∀ e ∈ increment, Expr.Moves T T' (1 :: pads) e)
    (hb : Stmt.Matches T T' (1 :: pads) body body') (hc : body.continues = false)
    (hn : pace.Allows 2 n n') :
    Abreast T T' pace W i k (Completion.Pairs T T')
      (Eval.round (Eval.execute n body) (do let _ ← Eval.optional (Eval.evaluate n) increment))
      (Eval.execute n' (.whileBody increment body')) := by
  cases n' with
  | zero => exact abreast_outOfFuel (hn.eq_behind (Nat.succ_pos _)) _
  | succ n' =>
    refine Abreast.padded hp fun W₁ hW k' hp' => ?_
    have hbody := ((hruns n' hn.inner.free).2 hp' hb).strengthen
      (Eval.execute_not_continue n hc)
    refine hbody.bind fun W₂ hW₂ ended ended' ⟨he, hne⟩ => ?_
    cases he with
    | normal => exact abreast_lastStep hruns (hW₂ _ _ _ hp') hs hn.inner
    | «break» => exact .pure fun _ _ => .break
    | «return» hv => exact .pure fun _ hW₃ => .return (hv.mono hW₃)
    | «continue» => exact absurd rfl hne

theorem abreast_whileRounds (hp : W (0 :: pads) i k)
    (hc : ∀ e ∈ condition, Expr.Moves T T' (0 :: pads) e)
    (hs : ∀ e ∈ increment, Expr.Moves T T' (1 :: pads) e)
    (hb : Stmt.Matches T T' (1 :: pads) body body') (hown : body.continues = false)
    (hn : pace.Allows 3 n n') :
    Abreast T T' pace W i k (Completion.Pairs T T')
      (Eval.loop (Eval.conditionOf (Eval.evaluate n) condition) (Eval.execute n body)
        (do let _ ← Eval.optional (Eval.evaluate n) increment) n)
      (Eval.execute n' (.whileRounds condition increment body')) := by
  cases n' with
  | zero => exact abreast_outOfFuel (hn.eq_behind (Nat.succ_pos _)) _
  | succ n' =>
    rw [Eval.loop_eq_round]
    refine abreast_loop ?_ (abreast_whileBody hruns hp hs hb hown hn.inner) hn.inner.free
    cases condition with
    | none =>
      cases n' with
      | zero => exact abreast_outOfFuel (hn.inner.eq_behind (Nat.succ_pos _)) _
      | succ n' =>
        show Abreast T T' pace W i k _ (pure true) (pure true)
        exact .pure fun _ _ => rfl
    | some e => exact abreast_truthy (hruns n' hn.inner.free).1 hp (hc e rfl)

/-- **A `for` statement and its while form go on abreast.** -/
theorem abreast_whileForm (hp : W pads i k) (hi : ∀ s ∈ initializer, s.isClause = true)
    (hi' : ∀ s ∈ initializer, Stmt.Matches T T' (0 :: pads) s s)
    (hc : ∀ e ∈ condition, Expr.Moves T T' (0 :: pads) e)
    (hs : ∀ e ∈ increment, Expr.Moves T T' (1 :: pads) e)
    (hb : Stmt.Matches T T' (1 :: pads) body body') (hown : body.continues = false)
    (hn : pace.Allows 3 n n') :
    Abreast T T' pace W i k (Completion.Pairs T T')
      (Eval.execute (n + 1) (.forLoop initializer condition increment body))
      (Eval.execute (n' + 1) (.whileForm initializer condition increment body')) := by
  refine .get fun W₁ hW m m' hj => ?_
  rw [hj.current, hj.current']
  refine (abreast_openScope (hW _ _ _ hp)).bind fun W₂ _ scope scope' hscope => .within ?_
  have hrounds {W₃ : Pairing} (hW₃ : W₂ ≤ W₃) := abreast_whileRounds hruns (hW₃ _ _ _ hscope) hc hs
    hb hown hn
  cases initializer with
  | none =>
    rw [Option.toList_none, List.nil_append, Eval.runAll_singleton]
    exact hrounds (le_refl _)
  | some s =>
    have hclause := ((hruns n' hn.free).2 hscope (hi' s rfl)).strengthen
      (Eval.execute_clause n (hi s rfl))
    refine hclause.bind fun W₃ hW₃ ended ended' ⟨he, hnormal⟩ => ?_
    subst hnormal
    cases he
    show Abreast T T' pace W₃ scope scope' _ _
      (Eval.runAll (Eval.execute n') [.whileRounds condition increment body'])
    rw [Eval.runAll_singleton]
    exact hrounds hW₃

end WhileForm

theorem abreast_executeRule (heval : EvalAbreast T T' pace eval eval')
    (hrun : RunAbreast T T' pace run run') {n n' : Nat} (hn : pace.Allows 0 n n')
    (hform : ∀ {W : Pairing} {pads i k initializer condition increment body body'}, W pads i k →
      (∀ s ∈ initializer, s.isClause = true) →
      (∀ s ∈ initializer, Stmt.Matches T T' (0 :: pads) s s) →
      (∀ e ∈ condition, Expr.Moves T T' (0 :: pads) e) →
      (∀ e ∈ increment, Expr.Moves T T' (1 :: pads) e) →
      Stmt.Matches T T' (1 :: pads) body body' → body.continues = false →
      Abreast T T' pace W i k (Completion.Pairs T T')
        (Eval.executeRule eval run n (.forLoop initializer condition increment body))
        (Eval.executeRule eval' run' n' (.whileForm initializer condition increment body'))) :
    RunAbreast T T' pace (Eval.executeRule eval run n) (Eval.executeRule eval' run' n') := by
  intro W pads i k s t hp h
  cases h with
  | expression he => exact (heval hp he).bind fun _ _ _ _ _ => .pure fun _ _ => .normal
  | print he =>
    refine (heval hp he).bind fun W₁ _ v v' hv => ?_
    rw [hv.text]
    exact (abreast_print v.text).bind fun _ _ _ _ _ => .pure fun _ _ => .normal
  | var he =>
    exact (abreast_optional heval hp he).bind fun W₁ hW _ _ hv =>
      (abreast_defineHere (hW _ _ _ hp) _ hv).bind fun _ _ _ _ _ => .pure fun _ _ => .normal
  | block hb => exact abreast_block hrun hp hb
  | ifThen hc ht =>
    refine (heval hp hc).bind fun W₁ hW v v' hv => ?_
    rw [hv.truthy]
    split
    · exact hrun (hW _ _ _ hp) ht
    · exact .pure fun _ _ => .normal
  | ifElse hc ht he =>
    refine (heval hp hc).bind fun W₁ hW v v' hv => ?_
    rw [hv.truthy]
    split
    · exact hrun (hW _ _ _ hp) ht
    · exact hrun (hW _ _ _ hp) he
  | whileLoop hc hb => exact abreast_loop (abreast_truthy heval hp hc) (hrun hp hb) hn
  | forLoop hi hc hs hb => exact abreast_forLoop heval hrun hp hi hc hs hb hn
  | whileForm hi hi' hc hs hb hown => exact hform hp hi hi' hc hs hb hown
  | function hf =>
    exact (abreast_declareFunction hp hf).bind fun _ _ _ _ _ => .pure fun _ _ => .normal
  | «class» hu hm =>
    exact (abreast_declareClass hp hu hm).bind fun _ _ _ _ _ => .pure fun _ _ => .normal
  | «return» he =>
    exact (abreast_optional heval hp he).bind fun _ _ _ _ hv =>
      .pure fun _ hW => .return (hv.mono hW)
  | «break» => exact .pure fun _ _ => .break
  | «continue» => exact .pure fun _ _ => .continue

/-! ## Runs -/

/-- **Whole runs of a program and of its while form go on abreast.** -/
theorem abreast_runs {n n' : Nat} (hn : pace.Allows 0 n n') :
    EvalAbreast T T' pace (Eval.evaluate n) (Eval.evaluate n') ∧
      RunAbreast T T' pace (Eval.execute n) (Eval.execute n') ∧
      CallAbreast T T' pace (Eval.call n) (Eval.call n') := by
  induction n generalizing n' with
  | zero =>
    exact ⟨fun {_ _ _ _ e} _ _ => abreast_zero (y := fun n => Eval.evaluate n e) hn rfl,
      fun {_ _ _ _ _ t} _ _ => abreast_zero (y := fun n => Eval.execute n t) hn rfl,
      fun {_ _ _ _ v' _ vs'} paren _ _ =>
        abreast_zero (y := fun n => Eval.call n v' vs' paren) hn rfl⟩
  | succ n ih =>
    cases n' with
    | zero =>
      have hpace := hn.eq_behind (Nat.succ_pos _)
      exact ⟨fun _ _ => abreast_outOfFuel hpace _, fun _ _ => abreast_outOfFuel hpace _,
        fun _ _ _ => abreast_outOfFuel hpace _⟩
    | succ n' =>
      obtain ⟨heval, hrun, hcall⟩ := ih hn.succ.free
      refine ⟨abreast_evaluateRule heval hcall, abreast_executeRule heval hrun hn.succ.free ?_,
        abreast_callRule hrun⟩
      intro W pads i k initializer condition increment body body' hp hi hi' hc hs hb hown
      exact abreast_whileForm (fun n' hn' => ⟨(ih hn').1, (ih hn').2.1⟩) hp hi hi' hc hs hb hown
        hn.succ

end Lox
