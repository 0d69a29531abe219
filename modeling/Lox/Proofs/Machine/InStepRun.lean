import Lox.Proofs.Machine.InStep
import Lox.Session

/-!
# Whole runs in step

The rules of evaluation are made up of steps that a program and the same program with another name for
one of its symbols do alike, so whole runs are in step.

* `Renamed.EvalInStep`, `Renamed.RunInStep`, `Renamed.CallInStep`: the parts of a rule are in step;
* `Renamed.inStep_declared`: a statement declares its name;
* `Renamed.inStep_invoke`, `Renamed.inStep_declareClass`, …: calls, properties and declarations;
* `Renamed.inStep_evaluateRule`, `Renamed.inStep_executeRule`: the rules of evaluation;
* **`Renamed.inStep_runs`**, **`Renamed.inStep_executeAll`**: whole runs.
-/

namespace Lox.Renamed

section Parts

variable (g : Renamed)

/-- The evaluations of an expression are in step. -/
def EvalInStep (eval eval' : Expr → Eval Value) : Prop :=
  ∀ {K i} {p : Site} {e : Expr}, g.Stands K p.frames i → e.sites p ⊆ programSites g.program →
    g.InStep K i (Value.Respells g) (eval e) (eval' (e.respell g.respelling))

/-- The runs of a statement are in step, and behind it the names that it declares are bound. -/
def RunInStep (run run' : Stmt → Eval Completion) : Prop :=
  ∀ {K i} {p : Site} {s : Stmt}, g.Stands K p.frames i → s.sites p ⊆ programSites g.program →
    g.InStep K i
      (fun K ended ended' => Completion.Respells g K ended ended' ∧ g.Stands K (p.after s).frames i)
      (run s) (run' (s.respell g.respelling))

/-- The calls of corresponding values are in step. -/
def CallInStep (call call' : Value → List Value → Token → Eval Value) : Prop :=
  ∀ {K i v v' vs vs'} (paren paren' : Token), Value.Respells g K v v' →
    List.Forall₂ (Value.Respells g K) vs vs' →
    g.InStep K i (Value.Respells g) (call v vs paren) (call' v' vs' paren')

end Parts

variable {g : Renamed} {K : Knowledge} {i : ScopeId} {p : Site} {eval eval' : Expr → Eval Value}
  {run run' : Stmt → Eval Completion} {call call' : Value → List Value → Token → Eval Value}
  {v v' : Value} {vs vs' : List Value}

/-! ## Methods and properties -/

theorem inStep_bind {c c' : Closure} (hc : Closure.RespellsMethod g K c c')
    (hv : Value.Respells g K v v') :
    g.InStep K i (fun K b b' => Closure.Respells g K b b' ∧ b.arity = c.arity) (Eval.bind c v)
      (Eval.bind c' v') := by
  obtain @⟨kind, p, cls, f, name, scope, isInitializer, hs, hsites⟩ := hc
  refine (inStep_openScope hs.knows (.this cls)).bind fun K₁ hK _ inner hopened => ?_
  obtain ⟨rfl, hp, hf⟩ := hopened
  refine (inStep_word hf .this (hv.mono hK)).bind fun K₂ hK₂ _ _ hf => .pure fun K₃ hK₃ => ?_
  have hframes : g.Stands K₂ (p.enter (.this cls) [Keyword.this.spelling]).frames inner :=
    .inner (hK₂ _ hp) (hs.mono (hK.trans hK₂)) hf
  exact ⟨.mk (hframes.mono hK₃) hsites, rfl⟩

theorem inStep_bindValue {c c' : Closure} (hc : Closure.RespellsMethod g K c c')
    (hv : Value.Respells g K v v') :
    g.InStep K i (Value.Respells g) (Eval.bindValue c v) (Eval.bindValue c' v') := by
  refine (inStep_bind hc hv).bind fun K₁ _ b b' hb => ?_
  refine inStep_freshObject.bind fun K₂ hK₂ id _ hid => .pure fun K₃ hK₃ => ?_
  exact hid ▸ .function id (hb.1.mono (hK₂.trans hK₃))

theorem inStep_getProperty (hv : Value.Respells g K v v') {name name' : Token}
    (hname : name'.lexeme = name.lexeme) :
    g.InStep K i (Value.Respells g) (Eval.getProperty v name) (Eval.getProperty v' name') := by
  cases hv with
  | @«instance» id c c' hc =>
    refine .get fun K₁ hK m m' hj => ?_
    rw [hname]
    have hfield := hj.field id name.lexeme
    have hmethod := hc.method? name.lexeme
    generalize m.fields[id]?.bind (·.get? name.lexeme) = f,
      m'.fields[id]?.bind (·.get? name.lexeme) = f' at hfield
    cases hfield with
    | some hf => exact .pure fun _ hK₁ => hf.mono hK₁
    | none =>
      dsimp only
      generalize c.method? name.lexeme = method, c'.method? name.lexeme = method' at hmethod
      cases hmethod with
      | some hm => exact inStep_bindValue (hm.mono hK) (.instance id (hc.mono hK))
      | none => exact .fail _ _ _ _
  | _ => exact .fail _ _ _ _

theorem inStep_instanceOf (hv : Value.Respells g K v v') (name name' : Token) :
    g.InStep K i (fun _ => Eq) (Eval.instanceOf v name) (Eval.instanceOf v' name') := by
  cases hv with
  | «instance» id hc => exact .pure fun _ _ => rfl
  | _ => exact .fail _ _ _ _

theorem inStep_superMethod {keyword : Occurrence}
    (hx : (p, Mark.read keyword) ∈ programSites g.program) {method method' : Token}
    (hmethod : method'.lexeme = method.lexeme) :
    g.InStep K i (Value.Respells g) (Eval.superMethod keyword method)
      (Eval.superMethod (keyword.respell g.respelling) method') := by
  have hsame : g.distances'[(keyword.respell g.respelling).id]? = g.distances[keyword.id]? :=
    g.same _ hx keyword rfl
  refine .get fun K₁ hK m m' hj => ?_
  dsimp only
  rw [hj.distances, hj.distances', hsame, hj.current, hj.current', hmethod]
  cases g.distances[keyword.id]? with
  | none => exact .fail _ _ _ _
  | some distance =>
    have hsuper := hj.links.getAt i distance .super
    dsimp only
    generalize m.scopes.getAt i distance Keyword.super.spelling = v,
      m'.scopes.getAt i distance Keyword.super.spelling = v' at hsuper
    cases hsuper with
    | none => exact .fail _ _ _ _
    | some hv =>
      cases hv with
      | @«class» c c' hc =>
        cases distance with
        | zero => exact .fail _ _ _ _
        | succ inner =>
          have hthis := hj.links.getAt i inner .this
          dsimp only
          generalize m.scopes.getAt i inner Keyword.this.spelling = this,
            m'.scopes.getAt i inner Keyword.this.spelling = this' at hthis
          cases hthis with
          | none => exact .fail _ _ _ _
          | some hthis =>
            have hfound := hc.method? method.lexeme
            dsimp only
            generalize c.method? method.lexeme = found, c'.method? method.lexeme = found' at hfound
            cases hfound with
            | some hm => exact inStep_bindValue hm hthis
            | none => exact .fail _ _ _ _
      | _ => exact .fail _ _ _ _

/-! ## Calls -/

theorem inStep_defineAll {scope : ScopeId} {region : Region} {params : List Token}
    (hparams : ∀ t ∈ params, region.Agrees g.respelling g.program ∧
      t ∈ region.declarations g.program)
    (hlen : vs.length = params.length) (hvs : List.Forall₂ (Value.Respells g K) vs vs')
    {names : List String} (hf : g.Shows K scope ⟨region, names⟩) :
    g.InStep K i (fun K _ _ => g.Shows K scope ⟨region, names ++ params.map Token.lexeme⟩)
      (Eval.defineAll scope params vs)
      (Eval.defineAll scope (params.map (Token.respell g.respelling)) vs') := by
  induction params generalizing K vs vs' names with
  | nil =>
    rw [List.map_nil, List.append_nil]
    cases hvs with
    | nil => exact .pure fun _ hK => hf.mono hK
    | cons _ _ => cases hlen
  | cons t params ih =>
    obtain ⟨⟨hr, ht⟩, hparams⟩ := List.forall_mem_cons.mp hparams
    cases hvs with
    | nil => cases hlen
    | cons hv hvs =>
      refine (inStep_declare (f := ⟨region, names⟩) hf hr ht fun _ hK _ => hv.mono hK).bind
        fun K₁ hK _ _ hf => ?_
      refine (ih hparams (Nat.succ.inj hlen) (hvs.imp fun _ _ h => h.mono hK) hf).imp
        fun _ _ _ _ hf => hf.rename fun hold => ?_
      simpa [or_left_comm] using hold

theorem inStep_runAll (hrun : g.RunInStep run run') {ss : List Stmt} (hs : g.Stands K p.frames i)
    (hsites : Stmt.sitesAll p ss ⊆ programSites g.program) :
    g.InStep K i (Completion.Respells g) (Eval.runAll run ss)
      (Eval.runAll run' (Stmt.respellAll g.respelling ss)) := by
  induction ss generalizing K p with
  | nil => exact .pure fun _ _ => .normal
  | cons s rest ih =>
    rw [Stmt.sitesAll, List.append_subset] at hsites
    refine (hrun hs hsites.1).bind fun K₁ _ ended ended' hended => ?_
    obtain ⟨he, hs⟩ := hended
    cases he with
    | normal => exact ih hs hsites.2
    | «return» hv => exact .pure fun _ hK => .return (hv.mono hK)
    | «break» => exact .pure fun _ _ => .break
    | «continue» => exact .pure fun _ _ => .continue

theorem inStep_boundThis {c c' : Closure} (hscope : c'.scope = c.scope) :
    g.InStep K i (Value.Respells g) (Eval.boundThis c) (Eval.boundThis c') := by
  refine .get fun K₁ _ m m' hj => ?_
  have hthis := hj.links.getAt c.scope 0 .this
  rw [hscope]
  generalize m.scopes.getAt c.scope 0 Keyword.this.spelling = v,
    m'.scopes.getAt c.scope 0 Keyword.this.spelling = v' at hthis
  cases hthis with
  | none => exact .pure fun _ _ => .nil
  | some hv => exact .pure fun _ hK => hv.mono hK

theorem inStep_invoke (hrun : g.RunInStep run run') {c c' : Closure}
    (hc : Closure.Respells g K c c') (hlen : vs.length = c.arity)
    (hvs : List.Forall₂ (Value.Respells g K) vs vs') :
    g.InStep K i (Value.Respells g) (Eval.invoke run c vs) (Eval.invoke run' c' vs') := by
  obtain @⟨kind, p, ⟨fname, params, body, span⟩, name, scope, isInitializer, hs, hsites⟩ := hc
  rw [Function.sites, List.append_subset] at hsites
  obtain ⟨hnames, hbody⟩ := hsites
  have hparams (t : Token) (ht : t ∈ params) :
      (Region.function ⟨fname, params, body, span⟩).Agrees g.respelling g.program ∧
        t ∈ (Region.function ⟨fname, params, body, span⟩).declarations g.program :=
    ⟨(g.agrees _ (hnames (List.mem_map_of_mem (List.mem_map_of_mem ht)))).regions _
      List.mem_cons_self, List.mem_append_left _ ht⟩
  refine (inStep_openScope hs.knows (.function ⟨fname, params, body, span⟩)).bind
    fun K₁ hK _ inner hopened => ?_
  obtain ⟨rfl, hp, hf⟩ := hopened
  refine (inStep_defineAll hparams hlen (hvs.imp fun _ _ h => h.mono hK) hf).bind
    fun K₂ hK₂ _ _ hf => ?_
  have hframes : g.Stands K₂ (p.enterFunction kind ⟨fname, params, body, span⟩).frames inner :=
    .inner (hK₂ _ hp) (hs.mono (hK.trans hK₂)) hf
  refine (InStep.within (inStep_runAll hrun hframes hbody)).bind fun K₃ _ ended ended' he => ?_
  split
  · exact inStep_boundThis rfl
  · cases he with
    | «return» hv => exact .pure fun _ hK₄ => hv.mono hK₄
    | _ => exact .pure fun _ _ => .nil

theorem inStep_checkArity {needed needed' : Nat} (h : needed' = needed)
    (hvs : List.Forall₂ (Value.Respells g K) vs vs') (paren paren' : Token) :
    g.InStep K i (fun _ _ _ => vs.length = needed) (Eval.checkArity needed vs paren)
      (Eval.checkArity needed' vs' paren') := by
  rw [Eval.checkArity, Eval.checkArity, h, ← hvs.length_eq]
  split
  · rename_i hlen
    exact .pure fun _ _ => eq_of_beq hlen
  · exact .fail _ _ _ _

theorem inStep_callRule (hrun : g.RunInStep run run') :
    g.CallInStep (Eval.callRule run) (Eval.callRule run') := by
  intro K i v v' vs vs' paren paren' hv hvs
  cases hv with
  | function id hc =>
    exact (inStep_checkArity hc.arity hvs paren paren').bind fun K₁ hK _ _ hlen =>
      inStep_invoke hrun (hc.mono hK) hlen (hvs.imp fun _ _ h => h.mono hK)
  | native f =>
    cases f with
    | clock =>
      exact (inStep_checkArity rfl hvs paren paren').bind fun _ _ _ _ _ => inStep_readClock
  | @«class» c c' hc =>
    refine (inStep_checkArity hc.arity hvs paren paren').bind fun K₁ hK _ _ hlen => ?_
    refine (inStep_freshInstance (hc.mono hK)).bind fun K₂ hK₂ this this' hthis => ?_
    have hinit := (hc.mono (hK.trans hK₂)).method? initializerName
    unfold ClassObject.arity at hlen
    unfold ClassObject.initializer? at hlen ⊢
    generalize c.method? initializerName = f, c'.method? initializerName = f' at hinit hlen
    cases hinit with
    | none => exact .pure fun _ hK₃ => hthis.mono hK₃
    | some hf =>
      refine (inStep_bind hf hthis).bind fun K₃ hK₃ bound bound' hbinds => ?_
      obtain ⟨hbound, harity⟩ := hbinds
      have hvs₃ := hvs.imp fun _ _ h => h.mono ((hK.trans hK₂).trans hK₃)
      refine (inStep_invoke hrun hbound (hlen.trans harity.symm) hvs₃).bind
        fun K₄ hK₄ _ _ _ => .pure fun K₅ hK₅ => ?_
      exact hthis.mono ((hK₃.trans hK₄).trans hK₅)
  | _ => exact .fail _ _ _ _

/-! ## Declarations -/

/-- **A statement declares its name** in the scope in which it stands. -/
theorem inStep_declared {s : Stmt} {t : Token} (hs : g.Stands K p.frames i)
    (hstmt : (p, Mark.statement s) ∈ programSites g.program) (ht : t ∈ s.declared?)
    (hv : ∀ K₁, K ≤ K₁ → g.Stands K₁ (p.declare t.lexeme).frames i → Value.Respells g K₁ v v') :
    g.InStep K i (fun K _ _ => g.Stands K (p.declare t.lexeme).frames i)
      (Eval.defineHere t.lexeme v) (Eval.defineHere (t.respelled g.respelling) v') := by
  obtain ⟨f, outer, hframes⟩ := hs.exists_cons
  have hregions : p.regions = f.region :: outer.map Frame.region := by rw [Site.regions, hframes]; rfl
  have hdeclare : (p.declare t.lexeme).frames = { f with names := t.lexeme :: f.names } :: outer := by
    rw [Site.declare, hframes]
  obtain ⟨region, hregion, hmem⟩ := (g.agrees _ hstmt).hosts s rfl t ht
  rw [hregions] at hregion
  cases hregion
  have hr : f.region.Agrees g.respelling g.program :=
    (g.agrees _ hstmt).regions _ (hregions ▸ List.mem_cons_self)
  rw [hdeclare] at hv ⊢
  rw [hframes] at hs
  refine .get fun K₁ hK m m' hj => ?_
  have hs₁ := hs.mono hK
  rw [hj.current, hj.current']
  refine (inStep_declare hs₁.shows hr hmem fun K₂ hK₂ hf => ?_).imp fun K₂ hK₂ _ _ hf =>
    (hs₁.mono hK₂).reframe hf
  exact hv K₂ (hK.trans hK₂) ((hs₁.mono hK₂).reframe hf)

theorem inStep_declareFunction {f : Function} (hs : g.Stands K p.frames i)
    (hstmt : (p, Mark.statement (.function f)) ∈ programSites g.program)
    (hsites : f.sites .function (p.declare f.name.lexeme) ⊆ programSites g.program) :
    g.InStep K i (fun K _ _ => g.Stands K (p.declare f.name.lexeme).frames i)
      (Eval.declareFunction f)
      (Eval.declareFunction (f.respell g.respelling (f.name.respell g.respelling))) := by
  unfold Eval.declareFunction
  rw [Function.name_respell]
  refine .get fun K₁ hK m m' hj => inStep_freshObject.bind fun K₂ hK₂ id _ hid => ?_
  rw [← hid, hj.current, hj.current']
  exact inStep_declared (hs.mono (hK.trans hK₂)) hstmt rfl fun _ _ hs =>
    .function id (.mk hs hsites)

theorem inStep_superclassValue (hs : g.Stands K p.frames i) {superclass : Option Occurrence}
    (hsites : Occurrence.sitesOption p superclass ⊆ programSites g.program) :
    g.InStep K i
      (fun K c c' => Option.Rel (ClassObject.Respells g K) c c' ∧ c.isSome = superclass.isSome)
      (Eval.superclassValue superclass)
      (Eval.superclassValue (superclass.map (Occurrence.respell g.respelling))) := by
  cases superclass with
  | none => exact .pure fun _ _ => ⟨.none, rfl⟩
  | some use =>
    refine (inStep_read hs (hsites List.mem_cons_self) rfl).bind fun K₁ _ v v' hv => ?_
    cases hv with
    | «class» hc => exact .pure fun _ hK => ⟨.some (hc.mono hK), rfl⟩
    | _ => exact .fail _ _ _ _

theorem inStep_methodScope (hknows : K.Knows i) {c : Class} {parent parent' : Option ClassObject}
    (hparent : Option.Rel (ClassObject.Respells g K) parent parent')
    (hsome : parent.isSome = c.superclass.isSome) :
    g.InStep K i
      (fun K scope scope' => scope' = scope ∧ ∀ K₁, K ≤ K₁ → ∀ q : Site,
        g.Stands K₁ q.frames i → g.Stands K₁ (q.enterSuper c).frames scope)
      (Eval.methodScope parent) (Eval.methodScope parent') := by
  refine .get fun K₁ hK m m' hj => ?_
  rw [hj.current, hj.current']
  unfold Site.enterSuper
  generalize c.superclass = superclass at hsome
  cases hparent with
  | none =>
    cases superclass with
    | none => exact .pure fun _ _ => ⟨rfl, fun _ _ _ hs => hs⟩
    | some use => cases hsome
  | some hc =>
    cases superclass with
    | none => cases hsome
    | some use =>
      refine (inStep_openScope (hknows.mono hK) (.super c)).bind
        fun K₂ hK₂ _ scope hopened => ?_
      obtain ⟨rfl, hp, hf⟩ := hopened
      refine (inStep_word hf .super (.class (hc.mono (hK.trans hK₂)))).bind
        fun K₃ hK₃ _ _ hf => .pure fun K₄ hK₄ => ⟨rfl, fun K₅ hK₅ q hs => ?_⟩
      exact .inner (hK₅ _ (hK₄ _ (hK₃ _ hp))) hs (hf.mono (hK₄.trans hK₅))

theorem inStep_declareClass {c : Class} (hs : g.Stands K p.frames i)
    (hstmt : (p, Mark.statement (.class c)) ∈ programSites g.program)
    (hsites : c.sites p ⊆ programSites g.program) :
    g.InStep K i (fun K _ _ => g.Stands K (p.declare c.name.lexeme).frames i)
      (Eval.declareClass c) (Eval.declareClass (c.respell g.respelling)) := by
  obtain ⟨name, superclass, methods, span⟩ := c
  rw [Class.sites, List.cons_subset, List.append_subset] at hsites
  obtain ⟨-, hsuper, hmethods⟩ := hsites
  unfold Eval.declareClass
  rw [Class.superclass_respell, Class.name_respell, Class.methods_respell]
  refine (inStep_superclassValue hs hsuper).bind fun K₁ hK c c' hparents => ?_
  obtain ⟨hc, hsome⟩ := hparents
  have hs₁ := hs.mono hK
  refine (inStep_methodScope (c := ⟨name, superclass, methods, span⟩) hs₁.knows hc hsome).bind
    fun K₂ hK₂ _ scope hscope => ?_
  obtain ⟨rfl, hstands⟩ := hscope
  refine inStep_freshObject.bind fun K₃ hK₃ id _ hid => ?_
  rw [← hid]
  refine inStep_declared (hs₁.mono (hK₂.trans hK₃)) hstmt rfl fun K₄ hK₄ hs₄ => .class ?_
  have htable := methodTable_respells (c := ⟨name, superclass, methods, span⟩)
    (hstands K₄ (hK₃.trans hK₄) _ hs₄) fun f (hf : f ∈ methods) _ hx =>
      hmethods (Function.mem_sitesMethods hf hx)
  cases hc with
  | none => exact .base htable
  | some hc => exact .derived (hc.mono ((hK₂.trans hK₃).trans hK₄)) htable

/-! ## Expressions -/

theorem inStep_optional (heval : g.EvalInStep eval eval') (hs : g.Stands K p.frames i)
    {e : Option Expr} (hsites : Expr.sitesOption p e ⊆ programSites g.program) :
    g.InStep K i (Value.Respells g) (Eval.optional eval e)
      (Eval.optional eval' (e.map (Expr.respell g.respelling))) := by
  cases e with
  | none => exact .pure fun _ _ => .nil
  | some e => exact heval hs hsites

theorem inStep_truthy (heval : g.EvalInStep eval eval') (hs : g.Stands K p.frames i) {e : Expr}
    (hsites : e.sites p ⊆ programSites g.program) :
    g.InStep K i (fun _ => Eq) (Value.truthy <$> eval e)
      (Value.truthy <$> eval' (e.respell g.respelling)) :=
  (heval hs hsites).bind fun _ _ _ _ hv => .pure fun _ _ => hv.truthy.symm

theorem inStep_conditionOf (heval : g.EvalInStep eval eval') (hs : g.Stands K p.frames i)
    {e : Option Expr} (hsites : Expr.sitesOption p e ⊆ programSites g.program) :
    g.InStep K i (fun _ => Eq) (Eval.conditionOf eval e)
      (Eval.conditionOf eval' (e.map (Expr.respell g.respelling))) := by
  cases e with
  | none => exact .pure fun _ _ => rfl
  | some e => exact inStep_truthy heval hs hsites

theorem inStep_arguments (heval : g.EvalInStep eval eval') (hs : g.Stands K p.frames i)
    {es : List Expr} (hsites : p.mark (Expr.marksAll es) ⊆ programSites g.program) :
    g.InStep K i (fun K => List.Forall₂ (Value.Respells g K)) (es.mapM eval)
      ((Expr.respellAll g.respelling es).mapM eval') := by
  induction es generalizing K with
  | nil => exact .pure fun _ _ => .nil
  | cons e rest ih =>
    rw [Expr.marksAll, Site.mark_append_subset] at hsites
    rw [Expr.respellAll, List.mapM_cons, List.mapM_cons]
    refine (heval hs hsites.1).bind fun K₁ hK v v' hv => ?_
    refine (ih (hs.mono hK) hsites.2).bind fun K₂ hK₂ vs vs' hvs => .pure fun K₃ hK₃ => ?_
    exact .cons (hv.mono (hK₂.trans hK₃)) (hvs.imp fun _ _ h => h.mono hK₃)

theorem inStep_evaluateRule (heval : g.EvalInStep eval eval') (hcall : g.CallInStep call call') :
    g.EvalInStep (Eval.evaluateRule eval call) (Eval.evaluateRule eval' call') := by
  intro K i p e hs hsites
  rw [Expr.sites] at hsites
  cases e with
  | literal constant => exact .pure fun _ _ => constant.plain_value.respells
  | grouping inner => exact heval hs hsites
  | unary op operator operand =>
    refine (heval (e := operand) hs hsites).bind fun _ _ _ _ hv => ?_
    exact .ofExcept (op.apply_respells hv) fun _ => UnaryOp.plain_of_apply
  | binary left op operator right =>
    rw [Expr.marks, Site.mark_append_subset] at hsites
    refine (heval hs hsites.1).bind fun K₁ hK a a' ha => ?_
    refine (heval (hs.mono hK) hsites.2).bind fun K₂ hK₂ b b' hb => ?_
    exact .ofExcept (op.apply_respells (ha.mono hK₂) hb) fun _ => BinaryOp.plain_of_apply
  | logical left op operator right =>
    rw [Expr.marks, Site.mark_append_subset] at hsites
    refine (heval hs hsites.1).bind fun K₁ hK a a' ha => ?_
    rw [op.decidedBy_respells ha]
    split
    · exact .pure fun _ hK₁ => ha.mono hK₁
    · exact heval (hs.mono hK) hsites.2
  | «variable» use => exact inStep_read hs (hsites List.mem_cons_self) rfl
  | assign target e =>
    rw [Expr.marks, Site.mark_cons_subset, Site.mark_cons_subset] at hsites
    refine (heval hs hsites.2.2).bind fun K₁ hK v v' hv => ?_
    refine (inStep_assign (hs.mono hK) hsites.1 rfl hv).bind fun K₂ hK₂ _ _ _ => ?_
    exact .pure fun _ hK₃ => hv.mono (hK₂.trans hK₃)
  | call callee arguments paren =>
    rw [Expr.marks, Site.mark_append_subset] at hsites
    refine (heval hs hsites.1).bind fun K₁ hK v v' hv => ?_
    refine (inStep_arguments heval (hs.mono hK) hsites.2).bind fun K₂ hK₂ vs vs' hvs => ?_
    exact hcall paren _ (hv.mono hK₂) hvs
  | get object name =>
    exact (heval (e := object) hs hsites).bind fun _ _ _ _ hv => inStep_getProperty hv rfl
  | set object name e =>
    rw [Expr.marks, Site.mark_append_subset] at hsites
    refine (heval hs hsites.1).bind fun K₁ hK o o' hobject => ?_
    refine (inStep_instanceOf hobject name _).bind fun K₂ hK₂ id id' hid => ?_
    refine (heval (hs.mono (hK.trans hK₂)) hsites.2).bind fun K₃ hK₃ v v' hv => ?_
    rw [← hid]
    refine (inStep_setField id name.lexeme hv).bind fun K₄ hK₄ _ _ _ => .pure fun _ hK₅ => ?_
    exact hv.mono (hK₄.trans hK₅)
  | this keyword => exact inStep_read hs (hsites List.mem_cons_self) rfl
  | super keyword method => exact inStep_superMethod (hsites List.mem_cons_self) rfl

/-! ## Statements -/

theorem inStep_loop {condition condition' : Eval Bool} {body body' : Eval Completion}
    {step step' : Eval Unit} (hc : g.InStep K i (fun _ => Eq) condition condition')
    (hb : g.InStep K i (Completion.Respells g) body body')
    (hs : g.InStep K i (fun _ => Eq) step step') (fuel : Nat) :
    g.InStep K i (Completion.Respells g) (Eval.loop condition body step fuel)
      (Eval.loop condition' body' step' fuel) := by
  induction fuel generalizing K with
  | zero => exact .outOfFuel
  | succ fuel ih =>
    refine hc.bind fun K₁ hK goesOn _ hgoes => ?_
    cases hgoes
    cases goesOn with
    | false => exact .pure fun _ _ => .normal
    | true =>
      refine (hb.mono hK).bind fun K₂ hK₂ ended ended' he => ?_
      cases he with
      | «break» => exact .pure fun _ _ => .normal
      | «return» hv => exact .pure fun _ hK₃ => .return (hv.mono hK₃)
      | _ =>
        have hK₂ := hK.trans hK₂
        refine (hs.mono hK₂).bind fun K₃ hK₃ _ _ _ => ?_
        have hK₃ := hK₂.trans hK₃
        exact ih (hc.mono hK₃) (hb.mono hK₃) (hs.mono hK₃)

/-- **An action in a new scope** inside of the current one. -/
theorem inStep_inside {R : Knowledge → Completion → Completion → Prop} {x x' : Eval Completion}
    (hs : g.Stands K p.frames i) (region : Region)
    (h : ∀ K₁, K ≤ K₁ → ∀ scope, g.Stands K₁ (p.enter region []).frames scope →
      g.InStep K₁ scope R x x') :
    g.InStep K i R (do let scope ← Eval.openScope (← get).current; Eval.within scope x)
      (do let scope ← Eval.openScope (← get).current; Eval.within scope x') := by
  refine .get fun K₁ hK m m' hj => ?_
  rw [hj.current, hj.current']
  refine (inStep_openScope (hs.mono hK).knows region).bind fun K₂ hK₂ _ scope hopened => ?_
  obtain ⟨rfl, hp, hf⟩ := hopened
  exact .within (h K₂ (hK.trans hK₂) scope (.inner hp (hs.mono (hK.trans hK₂)) hf))

theorem inStep_forLoop (heval : g.EvalInStep eval eval') (hrun : g.RunInStep run run')
    (hs : g.Stands K p.frames i) {initializer : Option Stmt} {condition increment : Option Expr}
    {body : Stmt} (fuel : Nat)
    (hsites : (Stmt.forLoop initializer condition increment body).sites p ⊆
      programSites g.program) :
    g.InStep K i (Completion.Respells g)
      (Eval.executeRule eval run fuel (.forLoop initializer condition increment body))
      (Eval.executeRule eval' run' fuel
        ((Stmt.forLoop initializer condition increment body).respell g.respelling)) := by
  let region := Region.clauses initializer condition increment body
  rw [Stmt.sites, List.cons_subset] at hsites
  simp only [List.append_subset] at hsites
  obtain ⟨-, ⟨⟨hinitializer, hcondition⟩, hincrement⟩, hbody⟩ := hsites
  rw [Stmt.respell]
  refine inStep_inside hs region fun K₁ _ scope hinner => ?_
  have hloop {K₂ : Knowledge}
      (hbehind : g.Stands K₂ ((p.enter region []).afterOption initializer).frames scope) :
      g.InStep K₂ scope (Completion.Respells g)
        (Eval.loop (Eval.conditionOf eval condition) (run body)
          (do let _ ← Eval.optional eval increment) fuel)
        (Eval.loop (Eval.conditionOf eval' (condition.map (Expr.respell g.respelling)))
          (run' (body.respell g.respelling))
          (do let _ ← Eval.optional eval' (increment.map (Expr.respell g.respelling))) fuel) := by
    refine inStep_loop (inStep_conditionOf heval hbehind hcondition) ?_ ?_ fuel
    · exact (hrun (p := ((p.enter region []).afterOption initializer).enterLoop) hbehind hbody).imp
        fun _ _ _ _ h => h.1
    · exact (inStep_optional heval hbehind hincrement).bind fun _ _ _ _ _ => .pure fun _ _ => rfl
  cases initializer with
  | none => exact hloop hinner
  | some s => exact (hrun hinner hinitializer).bind fun _ _ _ _ h => hloop h.2

theorem inStep_executeRule (heval : g.EvalInStep eval eval') (hrun : g.RunInStep run run')
    (fuel : Nat) : g.RunInStep (Eval.executeRule eval run fuel) (Eval.executeRule eval' run' fuel) := by
  intro K i p s hs hsites
  have hstmt : (p, Mark.statement s) ∈ programSites g.program := by
    rw [Stmt.sites.eq_def] at hsites
    exact hsites List.mem_cons_self
  -- a statement that declares nothing leaves the names as they are
  have plain {y y' : Eval Completion} (hnone : s.declared? = none)
      (h : g.InStep K i (Completion.Respells g) y y') :
      g.InStep K i (fun K ended ended' => Completion.Respells g K ended ended' ∧
        g.Stands K (p.after s).frames i) y y' := by
    refine h.imp fun K₁ hK _ _ he => ⟨he, ?_⟩
    rw [Site.after, hnone]
    exact hs.mono hK
  cases s with
  | forLoop initializer condition increment body =>
    exact plain rfl (inStep_forLoop heval hrun hs fuel hsites)
  | expression e =>
    rw [Stmt.sites, List.cons_subset] at hsites
    exact plain rfl ((heval hs hsites.2).bind fun _ _ _ _ _ => .pure fun _ _ => .normal)
  | print e =>
    rw [Stmt.sites, List.cons_subset] at hsites
    refine plain rfl ((heval hs hsites.2).bind fun K₁ _ v v' _ => ?_)
    exact (inStep_print v.text v'.text).bind fun _ _ _ _ _ => .pure fun _ _ => .normal
  | var name initializer =>
    rw [Stmt.sites, List.cons_subset, List.cons_subset] at hsites
    refine (inStep_optional (p := p.initializing name.lexeme) heval hs hsites.2.2).bind
      fun K₁ hK v v' hv => ?_
    refine (inStep_declared (hs.mono hK) hstmt rfl fun _ hK₁ _ => hv.mono hK₁).bind
      fun K₂ _ _ _ hs => .pure fun _ hK₂ => ⟨.normal, hs.mono hK₂⟩
  | block body =>
    rw [Stmt.sites, List.cons_subset] at hsites
    exact plain rfl (inStep_inside hs (.block body) fun K₁ _ scope hinner =>
      inStep_runAll hrun hinner hsites.2)
  | ifElse condition thenBranch elseBranch =>
    rw [Stmt.sites, List.cons_subset, List.append_subset, List.append_subset] at hsites
    obtain ⟨-, ⟨hcondition, hthen⟩, helse⟩ := hsites
    refine plain rfl ((heval hs hcondition).bind fun K₁ hK v v' hv => ?_)
    rw [hv.truthy]
    split
    · exact (hrun (hs.mono hK) hthen).imp fun _ _ _ _ h => h.1
    · cases elseBranch with
      | none => exact .pure fun _ _ => .normal
      | some s => exact (hrun (hs.mono hK) helse).imp fun _ _ _ _ h => h.1
  | whileLoop condition body =>
    rw [Stmt.sites, List.cons_subset, List.append_subset] at hsites
    refine plain rfl (inStep_loop (inStep_truthy heval hs hsites.2.1) ?_ (.pure fun _ _ => rfl) fuel)
    exact (hrun (p := p.enterLoop) hs hsites.2.2).imp fun _ _ _ _ h => h.1
  | function f =>
    rw [Stmt.sites, List.cons_subset, List.cons_subset] at hsites
    exact (inStep_declareFunction hs hstmt hsites.2.2).bind fun K₁ _ _ _ hs =>
      .pure fun _ hK => ⟨.normal, hs.mono hK⟩
  | «class» c =>
    rw [Stmt.sites, List.cons_subset] at hsites
    exact (inStep_declareClass hs hstmt hsites.2).bind fun K₁ _ _ _ hs =>
      .pure fun _ hK => ⟨.normal, hs.mono hK⟩
  | «return» keyword value =>
    rw [Stmt.sites, List.cons_subset, List.cons_subset] at hsites
    exact plain rfl ((inStep_optional heval hs hsites.2.2).bind fun _ _ _ _ hv =>
      .pure fun _ hK => .return (hv.mono hK))
  | «break» keyword => exact plain rfl (.pure fun _ _ => .break)
  | «continue» keyword => exact plain rfl (.pure fun _ _ => .continue)

/-! ## Runs -/

/-- **Whole runs are in step**, with the same bound on their depth. -/
theorem inStep_runs (g : Renamed) (fuel : Nat) :
    g.EvalInStep (Eval.evaluate fuel) (Eval.evaluate fuel) ∧
      g.RunInStep (Eval.execute fuel) (Eval.execute fuel) ∧
      g.CallInStep (Eval.call fuel) (Eval.call fuel) := by
  induction fuel with
  | zero => exact ⟨fun _ _ => .outOfFuel, fun _ _ => .outOfFuel, fun _ _ _ _ => .outOfFuel⟩
  | succ fuel ih =>
    obtain ⟨heval, hrun, hcall⟩ := ih
    exact ⟨inStep_evaluateRule heval hcall, inStep_executeRule heval hrun fuel,
      inStep_callRule hrun⟩

/-- **Programs are in step.** -/
theorem inStep_executeAll (fuel : Nat) {ss : List Stmt} (hs : g.Stands K p.frames i)
    (hsites : Stmt.sitesAll p ss ⊆ programSites g.program) :
    g.InStep K i (fun _ => Eq) (Session.executeAll fuel ss)
      (Session.executeAll fuel (Stmt.respellAll g.respelling ss)) := by
  induction ss generalizing K p with
  | nil => exact .pure fun _ _ => rfl
  | cons s rest ih =>
    rw [Stmt.sitesAll, List.append_subset] at hsites
    exact ((inStep_runs g fuel).2.1 hs hsites.1).bind fun K₁ _ _ _ h => ih h.2 hsites.2

end Lox.Renamed
