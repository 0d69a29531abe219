import Lox.Proofs.Machine.Chronicle

/-!
# The rules of evaluation keep the annals

* `chronicles_invoke`, `chronicles_callRule`: calls, `chronicles_superMethod`: methods;
* `chronicles_declareClass`: a class is made and told of;
* `chronicles_evaluateRule`, `chronicles_executeRule`: expressions and statements;
* **`chronicles_runs`**: runs of every depth, and to watch for what is in the annals makes no
  difference.
-/

namespace Lox

section Parts

variable {eval : Expr → Eval Value} {evalW : Annals → Interrupt → Expr → Eval Value}
  {run : Stmt → Eval Completion} {runW : Annals → Interrupt → Stmt → Eval Completion}
  {call : Value → List Value → Token → Eval Value}
  {callW : Annals → Interrupt → Value → List Value → Token → Eval Value}

/-- Evaluating expressions extends the annals. -/
def EvalChronicles (eval : Expr → Eval Value) (watched : Annals → Interrupt → Expr → Eval Value) :
    Prop :=
  ∀ {m annals} (e : Expr), m.UpToDate annals →
    Chronicles annals (eval e) (fun final signal => watched final signal e) m
      fun v m' annals' => v.OnRecord annals' m'

/-- Running statements extends the annals. -/
def RunChronicles (run : Stmt → Eval Completion)
    (watched : Annals → Interrupt → Stmt → Eval Completion) : Prop :=
  ∀ {m annals} (s : Stmt), m.UpToDate annals →
    Chronicles annals (run s) (fun final signal => watched final signal s) m
      fun c m' annals' => c.OnRecord annals' m'

/-- Calling values extends the annals. -/
def CallChronicles (call : Value → List Value → Token → Eval Value)
    (watched : Annals → Interrupt → Value → List Value → Token → Eval Value) : Prop :=
  ∀ {m annals} (callee : Value) (arguments : List Value) (paren : Token), m.UpToDate annals →
    callee.OnRecord annals m → (∀ v ∈ arguments, v.OnRecord annals m) →
    Chronicles annals (call callee arguments paren)
      (fun final signal => watched final signal callee arguments paren) m
      fun v m' annals' => v.OnRecord annals' m'

variable {annals : Annals} {m : Machine} {fuel : Nat}

/-! ## Calls -/

theorem chronicles_runAll (hrun : RunChronicles run runW) (ss : List Stmt)
    (hm : m.UpToDate annals) :
    Chronicles annals (Eval.runAll run ss)
      (fun final signal => Eval.runAll (runW final signal) ss) m
      fun c m' annals' => c.OnRecord annals' m' := by
  induction ss generalizing m annals with
  | nil => exact .pure hm trivial
  | cons s rest ih =>
    refine (hrun s hm).bind fun c m₁ annals₁ _ _ hm₁ hc => ?_
    cases c with
    | normal => exact ih hm₁
    | _ => exact .pure hm₁ hc

theorem chronicles_runAll_within (hrun : RunChronicles run runW) (ss : List Stmt)
    (hm : m.UpToDate annals) {k : ScopeId} (hk : k < m.scopes.size) :
    Chronicles annals (Eval.within k (Eval.runAll run ss))
      (fun final signal => Eval.within k (Eval.runAll (runW final signal) ss)) m
      fun c m' annals' => c.OnRecord annals' m' := by
  have hinside : Machine.UpToDate annals { m with current := k } :=
    hm.of_eq rfl rfl rfl (Nat.le_refl _) hk
  exact (chronicles_runAll hrun ss hinside).within hm.current fun c m' annals' hc =>
    hc.mono (.refl _) (.of_same rfl rfl rfl rfl)

theorem chronicles_defineAll {k : ScopeId} {params : List Token} {arguments : List Value}
    (hm : m.UpToDate annals) (hargs : ∀ v ∈ arguments, v.OnRecord annals m) :
    Chronicles annals (Eval.defineAll k params arguments)
      (fun _ _ => Eval.defineAll k params arguments) m fun _ _ _ => True := by
  induction params generalizing m annals arguments with
  | nil => exact .pure hm trivial
  | cons t params ih =>
    cases arguments with
    | nil => exact .pure hm trivial
    | cons v arguments =>
      obtain ⟨hv, hargs⟩ := List.forall_mem_cons.mp hargs
      exact (chronicles_define hm hv).bind fun _ m₁ annals₁ hw₁ ho₁ hm₁ _ =>
        ih hm₁ fun u hu => (hargs u hu).mono hw₁ ho₁

/-- **A function runs its body** in a scope of its own that is told of. -/
theorem chronicles_invoke (hrun : RunChronicles run runW) {c : Closure} {arguments : List Value}
    (hm : m.UpToDate annals) (hargs : ∀ v ∈ arguments, v.OnRecord annals m) {o : Opening}
    (hscope : o.outer < m.scopes.size) (ho : o.outer = c.scope) :
    Chronicles (annals.opened m.scopes.size o) (Eval.invoke run c arguments)
      (fun final signal => Eval.invoke (runW final signal) c arguments) m
      fun v m' annals' => v.OnRecord annals' m' := by
  have hw := hm.within_opened o
  unfold Eval.invoke
  rw [← ho]
  refine .opened hm hscope fun hm₁ => ?_
  have hargs₁ : ∀ v ∈ arguments, v.OnRecord _ (m.opened o.outer) :=
    fun v hv => (hargs v hv).mono hw (.opened m _)
  refine (chronicles_defineAll hm₁ hargs₁).bind fun _ m₂ annals₂ _ ho₂ hm₂ _ => ?_
  have hlt : m.scopes.size < m₂.scopes.size :=
    Nat.lt_of_lt_of_le (m.lt_size_opened o.outer) ho₂.size
  refine (chronicles_runAll_within hrun c.declaration.body hm₂ hlt).bind
    fun ended m₃ annals₃ _ _ hm₃ hended => ?_
  split
  · refine .get (.pure hm₃ ?_)
    cases hthis : m₃.scopes.getAt c.scope 0 Keyword.this.spelling with
    | none => trivial
    | some v =>
      obtain ⟨k, hk⟩ := Scopes.exists_own?_of_getAt _ hthis
      exact hm₃.values k _ v hk
  · cases ended with
    | «return» v => exact .pure hm₃ hended
    | _ => exact .pure hm₃ trivial

/-- A class makes an instance of itself, and its initializer runs in a scope inside that of `this`. -/
theorem chronicles_initialize (hrun : RunChronicles run runW) {c : ClassObject} {f : Closure}
    {arguments : List Value} (hm : m.UpToDate annals) (hc : c.OnRecord annals m)
    (hargs : ∀ v ∈ arguments, v.OnRecord annals m) (hf : c.initializer? = some f) {o o' : Opening}
    (ho : o.outer = f.scope) (ho' : o'.outer = m.scopes.size) :
    Chronicles ((annals.opened m.scopes.size o).opened (m.scopes.size + 1) o')
      (do
        let this ← Eval.freshInstance c
        let bound ← Eval.bind f this
        let _ ← Eval.invoke run bound arguments
        return this)
      (fun final signal => do
        let this ← Eval.freshInstance c
        let bound ← Eval.bind f this
        let _ ← Eval.invoke (runW final signal) bound arguments
        return this) m
      fun v m' annals' => v.OnRecord annals' m' := by
  have hfresh : (Value.instance m.fields.size c).OnRecord annals m.instantiated :=
    ⟨Nat.lt_of_lt_of_eq (Nat.lt_succ_self _) (Array.size_push _).symm,
      hc.mono (.refl _) (.instantiated m)⟩
  have hw := hm.within_opened o
  have hout := Machine.Outward.bound_method m.instantiated f (.instance m.fields.size c)
  have hsize := m.instantiated.size_bound f (.instance m.fields.size c)
  have hm₂ := hm.instantiated.bound (hc.method hf) hfresh ho
  have hbody := chronicles_invoke (c := { f with scope := m.scopes.size }) hrun hm₂
    (fun v hv => (hargs v hv).mono hw ((Machine.Outward.instantiated m).trans hout))
    (o := o') (ho' ▸ Nat.lt_of_lt_of_eq (Nat.lt_succ_self _) hsize.symm) ho'
  rw [hsize] at hbody
  refine .after (Eval.freshInstance_eq c m) (.instantiated m)
    (fun _ _ _ => Eval.freshInstance_eq c m) ?_
  refine .after (Eval.bind_eq f _ _) hout (fun _ _ _ => Eval.bind_eq f _ _) ?_
  refine hbody.bind fun _ m₃ annals₃ hw₃ ho₃ hm₃ _ => .pure hm₃ ?_
  have hopened : (annals.opened m.scopes.size o).Within
      ((annals.opened m.scopes.size o).opened (m.scopes.size + 1) o') :=
    Annals.within_opened (hm₂.openings _ (Nat.le_of_eq hsize))
  exact hfresh.mono (hw.trans (hopened.trans hw₃)) (hout.trans ho₃)

theorem chronicles_callRule (hrun : RunChronicles run runW) {callee : Value} {arguments : List Value}
    {paren : Token} (hm : m.UpToDate annals) (hcallee : callee.OnRecord annals m)
    (hargs : ∀ v ∈ arguments, v.OnRecord annals m) :
    ∃ least, annals.Within least ∧ least.Tells m (.call fuel callee arguments paren) ∧
      Chronicles least (Eval.callRule run callee arguments paren)
        (fun final signal => Eval.callRule (runW final signal) callee arguments paren) m
        fun v m' annals' => v.OnRecord annals' m' := by
  have hw := hm.within_opened
  cases callee with
  | function id c =>
    by_cases hlen : arguments.length = c.arity
    · simp only [Eval.callRule_function hlen]
      refine ⟨_, hw ⟨c.scope, .call fuel (.function id c) arguments paren, m⟩,
        fun k outer kind hopens => ?_, chronicles_invoke hrun hm hargs hcallee.2 rfl⟩
      cases hopens with
      | function => exact ⟨Nat.le_refl _, if_pos rfl⟩
    · simp only [Eval.callRule, Eval.checkArity_of_ne hlen]
      refine ⟨annals, .refl _, fun k outer kind hopens => ?_, chronicles_fail hm _ _⟩
      cases hopens with
      | function h => exact absurd h hlen
  | native f =>
    cases f
    refine ⟨annals, .refl _, by rintro _ _ _ ⟨⟩, ?_⟩
    simp only [Eval.callRule, Eval.checkArity]
    split
    · exact .step rfl (.of_same rfl rfl rfl rfl)
        (hm.of_eq rfl rfl rfl (Nat.le_refl _) hm.current) trivial
    · exact chronicles_fail hm _ _
  | «class» c =>
    by_cases hlen : arguments.length = c.arity
    · cases hi : c.initializer? with
      | none =>
        simp only [Eval.callRule_class_none hlen hi]
        refine ⟨annals, .refl _, fun k outer kind hopens => ?_,
          .step (Eval.freshInstance_eq c m) (.instantiated m) hm.instantiated
            ⟨Nat.lt_of_lt_of_eq (Nat.lt_succ_self _) (Array.size_push _).symm,
              ClassObject.OnRecord.mono hcallee (.refl _) (.instantiated m)⟩⟩
        cases hopens with
        | this _ h => cases hi.symm.trans h
        | initializer _ h => cases hi.symm.trans h
      | some f =>
        simp only [Eval.callRule_class hlen hi]
        have hnew (o o' : Opening) : (annals.opened m.scopes.size o).Within
            ((annals.opened m.scopes.size o).opened (m.scopes.size + 1) o') :=
          Annals.within_opened ((if_neg (Nat.succ_ne_self _)).trans
            (hm.openings _ (Nat.le_succ _)))
        refine ⟨_, (hw ⟨f.scope, .call fuel (.class c) arguments paren, m⟩).trans
          (hnew _ ⟨m.scopes.size, .call fuel (.class c) arguments paren, m⟩),
          fun k outer kind hopens => ?_,
          chronicles_initialize hrun hm hcallee hargs hi rfl rfl⟩
        cases hopens with
        | this _ h =>
          obtain rfl := Option.some.inj (hi.symm.trans h)
          exact ⟨Nat.le_refl _, (if_neg (Nat.succ_ne_self _).symm).trans (if_pos rfl)⟩
        | initializer => exact ⟨Nat.le_succ _, if_pos rfl⟩
    · simp only [Eval.callRule, Eval.checkArity_of_ne hlen]
      refine ⟨annals, .refl _, fun k outer kind hopens => ?_, chronicles_fail hm _ _⟩
      cases hopens with
      | this h _ => exact absurd h hlen
      | initializer h _ => exact absurd h hlen
  | _ => exact ⟨annals, .refl _, by rintro _ _ _ ⟨⟩, chronicles_fail hm _ _⟩

/-! ## Methods -/

theorem chronicles_getProperty (hm : m.UpToDate annals) {object : Value}
    (hobject : object.OnRecord annals m) (name : Token) (a : Activity) (m₀ : Machine) :
    ∃ least, annals.Within least ∧
      (∀ id c f, object = .instance id c → (m.fields[id]?).bind (·.get? name.lexeme) = none →
        c.method? name.lexeme = some f → least.openings m.scopes.size = some ⟨f.scope, a, m₀⟩) ∧
      Chronicles least (Eval.getProperty object name) (fun _ _ => Eval.getProperty object name) m
        fun v m' annals' => v.OnRecord annals' m' := by
  cases object with
  | «instance» id c =>
    cases hfield : (m.fields[id]?).bind (·.get? name.lexeme) with
    | some v =>
      obtain ⟨b, hb, hv⟩ := Option.bind_eq_some_iff.mp hfield
      have hget : Eval.getProperty (.instance id c) name m = .ok v m := by
        simp only [Eval.getProperty, get_bind, hfield]
        rfl
      refine ⟨annals, .refl _, ?_, .step hget (.refl m) hm (hm.fields id b _ v hb hv)⟩
      rintro _ _ f ⟨⟩ hnone
      cases hfield.symm.trans hnone
    | none =>
      cases hmethod : c.method? name.lexeme with
      | some f =>
        have hget : Eval.getProperty (.instance id c) name m = Eval.bindValue f (.instance id c) m := by
          simp only [Eval.getProperty, get_bind, hfield, hmethod]
        refine ⟨_, hm.within_opened ⟨f.scope, a, m₀⟩, ?_,
          chronicles_bindValue hm (hobject.2.method hmethod) hobject rfl hget⟩
        rintro _ _ f' ⟨⟩ - hf'
        obtain rfl := Option.some.inj (hmethod.symm.trans hf')
        exact if_pos rfl
      | none =>
        have hget : Eval.getProperty (.instance id c) name m =
            Eval.fail (.undefinedProperty name.lexeme) name m := by
          simp only [Eval.getProperty, get_bind, hfield, hmethod]
        refine ⟨annals, .refl _, ?_, .halt hget hm⟩
        rintro _ _ f' ⟨⟩ - hf'
        cases hmethod.symm.trans hf'
  | _ => exact ⟨annals, .refl _, by rintro _ _ _ ⟨⟩, chronicles_fail hm _ _⟩

/-- Either a method is bound, or `super` fails where it opens nothing. -/
theorem Eval.superMethod_cases (eval : Expr → Eval Value) (keyword : Occurrence) (method : Token)
    (m : Machine) :
    (∃ d superclass this f, m.distances[keyword.id]? = some (d + 1) ∧
      m.scopes.getAt m.current (d + 1) Keyword.super.spelling = some (.class superclass) ∧
      m.scopes.getAt m.current d Keyword.this.spelling = some this ∧
      superclass.method? method.lexeme = some f ∧
      Eval.superMethod keyword method m = Eval.bindValue f this m) ∨
    (∀ k outer kind, ¬ Expr.Opens eval m (.super keyword method) k outer kind) ∧
      ∃ e, Eval.superMethod keyword method m = .error e m := by
  by_cases hopens : ∃ k outer kind, Expr.Opens eval m (.super keyword method) k outer kind
  · obtain ⟨k, outer, kind, hopens⟩ := hopens
    cases hopens with
    | @super _ _ d superclass this f hd hsuper hthis hf =>
      refine .inl ⟨d, superclass, this, f, hd, hsuper, hthis, hf, ?_⟩
      simp only [Eval.superMethod, get_bind, hd, hsuper, hthis, hf]
  · have hnone (k : ScopeId) (outer : ScopeId) (kind : Region → Prop) :
        ¬ Expr.Opens eval m (.super keyword method) k outer kind :=
      fun h => hopens ⟨k, outer, kind, h⟩
    refine .inr ⟨hnone, ?_⟩
    rw [Eval.superMethod, get_bind]
    cases hd : m.distances[keyword.id]? with
    | none => exact ⟨_, rfl⟩
    | some distance =>
      dsimp only
      cases hsuper : m.scopes.getAt m.current distance Keyword.super.spelling with
      | none => exact ⟨_, rfl⟩
      | some v =>
        cases v with
        | «class» superclass =>
          cases distance with
          | zero => exact ⟨_, rfl⟩
          | succ inner =>
            dsimp only
            cases hthis : m.scopes.getAt m.current inner Keyword.this.spelling with
            | none => exact ⟨_, rfl⟩
            | some this =>
              cases hf : superclass.method? method.lexeme with
              | some f => exact absurd (.super hd hsuper hthis hf) (hnone _ _ _)
              | none => exact ⟨_, rfl⟩
        | _ => exact ⟨_, rfl⟩

theorem chronicles_superMethod (hm : m.UpToDate annals) (keyword : Occurrence) (method : Token) :
    ∃ least, annals.Within least ∧ least.Tells m (.evaluate fuel (.super keyword method)) ∧
      Chronicles least (Eval.superMethod keyword method)
        (fun _ _ => Eval.superMethod keyword method) m
        fun v m' annals' => v.OnRecord annals' m' := by
  rcases Eval.superMethod_cases (Eval.evaluate (fuel - 1)) keyword method m with
    ⟨d, superclass, this, f, hd, hsuper, hthis, hf, heq⟩ | ⟨hnone, e, he⟩
  · obtain ⟨k, hk⟩ := Scopes.exists_own?_of_getAt _ hsuper
    obtain ⟨k', hk'⟩ := Scopes.exists_own?_of_getAt _ hthis
    have hclass : superclass.OnRecord annals m := hm.values k _ _ hk
    refine ⟨_, hm.within_opened ⟨f.scope, .evaluate fuel (.super keyword method), m⟩,
      fun k outer kind hopens => ?_,
      chronicles_bindValue hm (hclass.method hf) (hm.values k' _ _ hk') rfl heq⟩
    cases hopens with
    | super hd' hsuper' _ hf' =>
      cases hd.symm.trans hd'
      cases hsuper.symm.trans hsuper'
      obtain rfl := Option.some.inj (hf.symm.trans hf')
      exact ⟨Nat.le_refl _, if_pos rfl⟩
  · exact ⟨annals, .refl _, fun k outer kind hopens => absurd hopens (hnone k outer kind),
      .halt he hm⟩

/-! ## Declarations -/

/-- **A class is declared** and told of, and so is the scope of `super` around its methods. -/
theorem chronicles_declareClass (hm : m.UpToDate annals) (c : Class) :
    ∃ least, annals.Within least ∧ least.Tells m (.execute fuel (.class c)) ∧
      Chronicles least (Eval.declareClass c) (fun _ _ => Eval.declareClass c) m
        fun _ _ _ => True := by
  cases hsuper : c.superclass with
  | none =>
    have hmade := hm.made (c := ⟨m.nextObject, c.name.lexeme, none,
      Eval.methodTable m.current c.methods⟩) rfl (by rintro _ ⟨⟩) fun name f hf => by
        obtain ⟨_, _, _, hscope⟩ := exists_of_methodTable hf
        exact hscope ▸ hm.current
    refine ⟨_, hm.within_made rfl, fun k outer kind hopens => ?_,
      .step (Eval.declareClass_of_none hsuper) ((Machine.Outward.numbered m).trans
        (.defined _ _ _ _))
        (hmade.1.defined (v := .class _) hmade.2 _ _) trivial⟩
    cases hopens with
    | super h _ => cases hsuper.symm.trans h
  | some use =>
    by_cases hread : ∃ parent, Eval.read use m = .ok (.class parent) m
    · obtain ⟨parent, hread⟩ := hread
      have hparent : parent.OnRecord annals m := by
        rcases Eval.read_cases use m with ⟨v, k, hv, hown⟩ | ⟨e, he⟩
        · cases hread.symm.trans hv
          exact hm.values k _ _ hown
        · cases hread.symm.trans he
      -- the scope of `super` is opened, and then the class is made in it
      have hopened : (m.inherited parent).UpToDate
          (annals.opened m.scopes.size ⟨m.current, .execute fuel (.class c), m⟩) := by
        refine (hm.opened hm.current).defined (v := .class parent) ?_ _ _
        exact hparent.mono (hm.within_opened _) (.opened m _)
      have hmade := hopened.made (c := m.newClass c parent) rfl
        (fun k hk => by
          obtain rfl := Option.some.inj hk
          exact hparent.mono (hm.within_opened _) (.inherited m parent))
        fun name f hf => by
          obtain ⟨_, _, _, hscope⟩ := exists_of_methodTable hf
          exact hscope ▸ Nat.lt_of_lt_of_eq (Nat.lt_succ_self _) Machine.size_inherited.symm
      refine ⟨_, (hm.within_opened _).trans (hopened.within_made rfl), fun k outer kind hopens => ?_,
        .step (Eval.declareClass_of_read hsuper hread)
          ((Machine.Outward.inherited m parent).trans
            ((Machine.Outward.numbered _).trans (.defined _ _ _ _)))
          (hmade.1.defined (v := .class _) hmade.2 _ _) trivial⟩
      cases hopens with
      | super _ _ => exact ⟨Nat.le_refl _, if_pos rfl⟩
    · have hnone (parent : ClassObject) : Eval.read use m ≠ .ok (.class parent) m :=
        fun h => hread ⟨parent, h⟩
      obtain ⟨e, he⟩ := Eval.declareClass_of_error hsuper hnone
      refine ⟨annals, .refl _, fun k outer kind hopens => ?_, .halt he hm⟩
      cases hopens with
      | super h hread' =>
        cases hsuper.symm.trans h
        exact absurd hread' (hnone _)

/-! ## Expressions -/

theorem chronicles_arguments (heval : EvalChronicles eval evalW) (es : List Expr)
    (hm : m.UpToDate annals) :
    Chronicles annals (es.mapM eval) (fun final signal => es.mapM (evalW final signal)) m
      fun vs m' annals' => ∀ v ∈ vs, v.OnRecord annals' m' := by
  induction es generalizing m annals with
  | nil => exact .pure hm (by simp)
  | cons e rest ih =>
    simp only [List.mapM_cons]
    refine (heval e hm).bind fun v m₁ annals₁ _ _ hm₁ hv => ?_
    refine (ih hm₁).bind fun vs m₂ annals₂ hw₂ ho₂ hm₂ hvs => .pure hm₂ ?_
    exact List.forall_mem_cons.mpr ⟨hv.mono hw₂ ho₂, hvs⟩

/-- **An expression** is evaluated, and what it opens itself is told of. -/
theorem chronicles_evaluateRule (heval : EvalChronicles (Eval.evaluate fuel) evalW)
    (hcall : CallChronicles call callW) (e : Expr) (hm : m.UpToDate annals) :
    ∃ least, annals.Within least ∧ least.Tells m (.evaluate (fuel + 1) e) ∧
      Chronicles least (Eval.evaluateRule (Eval.evaluate fuel) call e)
        (fun final signal => Eval.evaluateRule (evalW final signal) (callW final signal) e) m
        fun v m' annals' => v.OnRecord annals' m' := by
  cases e with
  | literal constant =>
    exact ⟨annals, .refl _, by rintro _ _ _ ⟨⟩, .pure hm (by cases constant <;> trivial)⟩
  | grouping inner => exact ⟨annals, .refl _, by rintro _ _ _ ⟨⟩, heval inner hm⟩
  | unary op operator operand =>
    refine ⟨annals, .refl _, by rintro _ _ _ ⟨⟩, (heval operand hm).bind fun v m₁ annals₁ _ _ hm₁ _ => ?_⟩
    exact chronicles_ofExcept hm₁ operator _ fun _ h => (UnaryOp.plain_of_apply h).onRecord
  | binary left op operator right =>
    refine ⟨annals, .refl _, by rintro _ _ _ ⟨⟩, (heval left hm).bind fun a m₁ annals₁ _ _ hm₁ _ => ?_⟩
    refine (heval right hm₁).bind fun b m₂ annals₂ _ _ hm₂ _ => ?_
    exact chronicles_ofExcept hm₂ operator _ fun _ h => (BinaryOp.plain_of_apply h).onRecord
  | logical left op operator right =>
    refine ⟨annals, .refl _, by rintro _ _ _ ⟨⟩, (heval left hm).bind fun a m₁ annals₁ _ _ hm₁ ha => ?_⟩
    split
    · exact .pure hm₁ ha
    · exact heval right hm₁
  | «variable» use => exact ⟨annals, .refl _, by rintro _ _ _ ⟨⟩, chronicles_read hm use⟩
  | assign target e =>
    refine ⟨annals, .refl _, by rintro _ _ _ ⟨⟩, (heval e hm).bind fun v m₁ annals₁ _ _ hm₁ hv => ?_⟩
    exact (chronicles_assign hm₁ hv).bind fun _ m₂ annals₂ hw₂ ho₂ hm₂ _ =>
      .pure hm₂ (hv.mono hw₂ ho₂)
  | call callee arguments paren =>
    refine ⟨annals, .refl _, by rintro _ _ _ ⟨⟩, (heval callee hm).bind fun f m₁ annals₁ _ _ hm₁ hf => ?_⟩
    refine (chronicles_arguments heval arguments hm₁).bind fun vs m₂ annals₂ hw₂ ho₂ hm₂ hvs => ?_
    exact hcall f vs paren hm₂ (hf.mono hw₂ ho₂) hvs
  | get object name =>
    refine Chronicles.exists_bind (heval object hm) (fun v m₁ annals₁ hx ho₁ hm₁ hv => ?_)
      fun e m₁ annals₁ hx k outer kind hopens => ?_
    · obtain ⟨least, hw, htells, h⟩ :=
        chronicles_getProperty hm₁ hv name (.evaluate (fuel + 1) (.get object name)) m
      refine ⟨least, hw, fun k outer kind hopens => ?_, h⟩
      cases hopens with
      | get hobject hfield hmethod =>
        cases hx.symm.trans hobject
        exact ⟨ho₁.size, htells _ _ _ rfl hfield hmethod⟩
    · cases hopens with
      | get hobject _ _ => cases hx.symm.trans hobject
  | set object name e =>
    refine ⟨annals, .refl _, by rintro _ _ _ ⟨⟩, (heval object hm).bind fun v m₁ annals₁ _ _ hm₁ _ => ?_⟩
    cases v with
    | «instance» id c =>
      refine (heval e hm₁).bind fun w m₂ annals₂ _ _ hm₂ hw => ?_
      have hset : Chronicles annals₂ (Eval.setField id name.lexeme w)
          (fun _ _ => Eval.setField id name.lexeme w) m₂ fun _ _ _ => True :=
        .step rfl (.set_field m₂ id name.lexeme w) (hm₂.set_field hw id name.lexeme) trivial
      exact hset.bind fun _ m₃ annals₃ hw₃ ho₃ hm₃ _ => .pure hm₃ (hw.mono hw₃ ho₃)
    | _ => exact .throw hm₁
  | this keyword => exact ⟨annals, .refl _, by rintro _ _ _ ⟨⟩, chronicles_read hm keyword⟩
  | super keyword method => exact chronicles_superMethod hm keyword method

/-! ## Statements -/

theorem chronicles_optional (heval : EvalChronicles eval evalW) (e : Option Expr)
    (hm : m.UpToDate annals) :
    Chronicles annals (Eval.optional eval e)
      (fun final signal => Eval.optional (evalW final signal) e) m
      fun v m' annals' => v.OnRecord annals' m' := by
  cases e with
  | none => exact .pure hm trivial
  | some e => exact heval e hm

theorem chronicles_conditionOf (heval : EvalChronicles eval evalW) (e : Option Expr)
    (hm : m.UpToDate annals) :
    Chronicles annals (Eval.conditionOf eval e)
      (fun final signal => Eval.conditionOf (evalW final signal) e) m fun _ _ _ => True := by
  cases e with
  | none => exact .pure hm trivial
  | some e => exact (heval e hm).map fun _ _ _ _ => trivial

theorem chronicles_loop {condition : Eval Bool} {body : Eval Completion} {step : Eval Unit}
    {conditionW : Annals → Interrupt → Eval Bool} {bodyW : Annals → Interrupt → Eval Completion}
    {stepW : Annals → Interrupt → Eval Unit}
    (hc : ∀ {m annals}, m.UpToDate annals →
      Chronicles annals condition conditionW m fun _ _ _ => True)
    (hb : ∀ {m annals}, m.UpToDate annals →
      Chronicles annals body bodyW m fun c m' annals' => c.OnRecord annals' m')
    (hs : ∀ {m annals}, m.UpToDate annals → Chronicles annals step stepW m fun _ _ _ => True)
    (fuel : Nat) (hm : m.UpToDate annals) :
    Chronicles annals (Eval.loop condition body step fuel)
      (fun final signal => Eval.loop (conditionW final signal) (bodyW final signal)
        (stepW final signal) fuel) m fun c m' annals' => c.OnRecord annals' m' := by
  induction fuel generalizing m annals with
  | zero => exact .throw hm
  | succ fuel ih =>
    refine (hc hm).bind fun goesOn m₁ annals₁ _ _ hm₁ _ => ?_
    cases goesOn with
    | false => exact .pure hm₁ trivial
    | true =>
      refine (hb hm₁).bind fun ended m₂ annals₂ _ _ hm₂ hended => ?_
      cases ended with
      | normal => exact (hs hm₂).bind fun _ _ _ _ _ hm₃ _ => ih hm₃
      | «continue» => exact (hs hm₂).bind fun _ _ _ _ _ hm₃ _ => ih hm₃
      | «break» => exact .pure hm₂ trivial
      | «return» v => exact .pure hm₂ hended

/-- **A statement** is run, and what it opens itself is told of. -/
theorem chronicles_executeRule (heval : EvalChronicles eval evalW) (hrun : RunChronicles run runW)
    (depth : Nat) (s : Stmt) (hm : m.UpToDate annals) :
    ∃ least, annals.Within least ∧ least.Tells m (.execute fuel s) ∧
      Chronicles least (Eval.executeRule eval run depth s)
        (fun final signal => Eval.executeRule (evalW final signal) (runW final signal) depth s) m
        fun c m' annals' => c.OnRecord annals' m' := by
  have hw := hm.within_opened
  have hnew := m.lt_size_opened m.current
  cases s with
  | expression e =>
    exact ⟨annals, .refl _, by rintro _ _ _ ⟨⟩, (heval e hm).bind fun _ _ _ _ _ hm₁ _ => .pure hm₁ trivial⟩
  | print e =>
    exact ⟨annals, .refl _, by rintro _ _ _ ⟨⟩, (heval e hm).bind fun v _ _ _ _ hm₁ _ =>
      (chronicles_print hm₁ v.text).bind fun _ _ _ _ _ hm₂ _ => .pure hm₂ trivial⟩
  | var name initializer =>
    exact ⟨annals, .refl _, by rintro _ _ _ ⟨⟩, (chronicles_optional heval initializer hm).bind
      fun v _ _ _ _ hm₁ hv => (chronicles_defineHere hm₁ hv).bind
        fun _ _ _ _ _ hm₂ _ => .pure hm₂ trivial⟩
  | block body =>
    refine ⟨_, hw ⟨m.current, .execute fuel (.block body), m⟩, fun k outer kind hopens => ?_,
      .get (.opened hm hm.current fun hm₁ => chronicles_runAll_within hrun body hm₁ hnew)⟩
    cases hopens with
    | block => exact ⟨Nat.le_refl _, if_pos rfl⟩
  | ifElse condition thenBranch elseBranch =>
    refine ⟨annals, .refl _, by rintro _ _ _ ⟨⟩, (heval condition hm).bind fun v m₁ annals₁ _ _ hm₁ _ => ?_⟩
    split
    · exact hrun thenBranch hm₁
    · cases elseBranch with
      | none => exact .pure hm₁ trivial
      | some s => exact hrun s hm₁
  | whileLoop condition body =>
    exact ⟨annals, .refl _, by rintro _ _ _ ⟨⟩, chronicles_loop
      (fun hm => (heval condition hm).map fun _ _ _ _ => trivial) (fun hm => hrun body hm)
      (fun hm => .pure hm trivial) depth hm⟩
  | forLoop initializer condition increment body =>
    have hloop {m annals} (hm : m.UpToDate annals) :
        Chronicles annals
          (Eval.loop (Eval.conditionOf eval condition) (run body)
            (Eval.optional eval increment >>= fun _ => pure ()) depth)
          (fun final signal => Eval.loop (Eval.conditionOf (evalW final signal) condition)
            (runW final signal body)
            (Eval.optional (evalW final signal) increment >>= fun _ => pure ()) depth) m
          fun c m' annals' => c.OnRecord annals' m' :=
      chronicles_loop (fun hm => chronicles_conditionOf heval condition hm) (fun hm => hrun body hm)
        (fun hm => (chronicles_optional heval increment hm).bind
          fun _ _ _ _ _ hm₁ _ => .pure hm₁ trivial) depth hm
    refine ⟨_, hw ⟨m.current, .execute fuel (.forLoop initializer condition increment body), m⟩,
      fun k outer kind hopens => ?_, .get (.opened hm hm.current fun hm₁ => ?_)⟩
    · cases hopens with
      | clauses => exact ⟨Nat.le_refl _, if_pos rfl⟩
    · have hinside : Machine.UpToDate _ { m.opened m.current with current := m.scopes.size } :=
        hm₁.of_eq rfl rfl rfl (Nat.le_refl _) hnew
      refine Chronicles.within hm₁.current ?_ fun c m' annals' hc =>
        hc.mono (.refl _) (.of_same rfl rfl rfl rfl)
      cases initializer with
      | none => exact hloop hinside
      | some s => exact (hrun s hinside).bind fun _ _ _ _ _ hm₂ _ => hloop hm₂
  | function declaration =>
    have hdeclare : Chronicles annals (Eval.declareFunction declaration)
        (fun _ _ => Eval.declareFunction declaration) m fun _ _ _ => True := by
      unfold Eval.declareFunction
      refine .get (.after rfl (.numbered m) (fun _ _ _ => rfl) ?_)
      exact chronicles_defineHere hm.numbered ⟨Nat.lt_succ_self _, hm.current⟩
    exact ⟨annals, .refl _, by rintro _ _ _ ⟨⟩, hdeclare.bind fun _ _ _ _ _ hm₁ _ => .pure hm₁ trivial⟩
  | «class» c =>
    obtain ⟨least, hw, htells, h⟩ := chronicles_declareClass hm c
    exact ⟨least, hw, htells, h.bind fun _ _ _ _ _ hm₁ _ => .pure hm₁ trivial⟩
  | «return» keyword value =>
    exact ⟨annals, .refl _, by rintro _ _ _ ⟨⟩, (chronicles_optional heval value hm).bind
      fun v _ _ _ _ hm₁ hv => .pure hm₁ hv⟩
  | «break» keyword => exact ⟨annals, .refl _, by rintro _ _ _ ⟨⟩, .pure hm trivial⟩
  | «continue» keyword => exact ⟨annals, .refl _, by rintro _ _ _ ⟨⟩, .pure hm trivial⟩

/-! ## Watched runs -/

/-- **Runs of every depth keep the annals**, and to watch for what is in them makes no difference. -/
theorem chronicles_runs (fuel : Nat) :
    EvalChronicles (Eval.evaluate fuel)
        (fun final signal => Eval.watchedEvaluate (chronicle final signal) fuel) ∧
      RunChronicles (Eval.execute fuel)
        (fun final signal => Eval.watchedExecute (chronicle final signal) fuel) ∧
      CallChronicles (Eval.call fuel)
        (fun final signal => Eval.watchedCall (chronicle final signal) fuel) := by
  induction fuel with
  | zero => exact ⟨fun _ hm => .throw hm, fun _ hm => .throw hm, fun _ _ _ hm _ _ => .throw hm⟩
  | succ fuel ih =>
    obtain ⟨heval, hrun, hcall⟩ := ih
    refine ⟨fun e hm => ?_, fun s hm => ?_, fun callee arguments paren hm hcallee hargs => ?_⟩
    · obtain ⟨least, hw, htells, h⟩ := chronicles_evaluateRule heval hcall e hm
      have hwatched := h.watched htells (fun _ _ _ _ hw hv => hv.mono hw (.refl _))
        fun final hfinal hends =>
          ⟨hm.toOnRecord.widen (hw.trans hfinal), trivial, hends, htells.widen hfinal⟩
      exact hwatched.weaken hw
    · obtain ⟨least, hw, (htells : least.Tells _ (.execute (fuel + 1) s)), h⟩ :=
        chronicles_executeRule heval hrun fuel s hm
      have hwatched := h.watched htells (fun _ _ _ _ hw hc => hc.mono hw (.refl _))
        fun final hfinal hends =>
          ⟨hm.toOnRecord.widen (hw.trans hfinal), trivial, hends, htells.widen hfinal⟩
      exact hwatched.weaken hw
    · obtain ⟨least, hw, (htells : least.Tells _ (.call (fuel + 1) callee arguments paren)), h⟩ :=
        chronicles_callRule hrun hm hcallee hargs
      have hheld {final : Annals} (hfinal : least.Within final) :
          (Activity.call (fuel + 1) callee arguments paren).Held final _ :=
        ⟨hcallee.mono (hw.trans hfinal) (.refl _),
          fun v hv => (hargs v hv).mono (hw.trans hfinal) (.refl _)⟩
      have hwatched := h.watched htells (fun _ _ _ _ hw hv => hv.mono hw (.refl _))
        fun final hfinal hends =>
          ⟨hm.toOnRecord.widen (hw.trans hfinal), hheld hfinal, hends, htells.widen hfinal⟩
      exact hwatched.weaken hw

end Parts

end Lox
