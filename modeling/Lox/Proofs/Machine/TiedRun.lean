import Lox.Proofs.Machine.Tied
import Lox.Proofs.Machine.UpholdsRun
import Lox.Proofs.Session.Calls

/-!
# Runs keep `this`

From a tied machine every run leads to a tied machine in which `this` is in every scope what it was.
So a watch may depend on what `this` will be in all scopes that are ever opened: it is known from the
machine at the end.

* `Machine.LeadsTo`: what holds behind an action;
* `Ties`: an action leads to a tied machine, and watched for what the future holds it does the same;
* `Ties.bind`, `Ties.within`, `Ties.watched`, …: actions made up of such parts;
* `ties_invoke`, `ties_callRule`, `ties_evaluateRule`, `ties_executeRule`: the rules of evaluation;
* `Foresees`: a watch allows what begins in a tied machine with this future;
* **`ties_runs`**: watched runs of every depth.
-/

namespace Lox

variable {sites : List (Site × Mark)}

/-- Behind an action the machine stands where it stood, everything is tied, and `this` is what it
was. -/
structure Machine.LeadsTo (sites : List (Site × Mark)) (m m' : Machine) : Prop
    extends m.KeepsThis m' where
  current : m'.current = m.current
  tied : m'.Tied sites

/-- The action leads to a tied machine; and watched for what depends on a later machine it does the
same. -/
structure Ties (sites : List (Site × Mark)) {α : Type} (x : Eval α)
    (watched : Machine → Interrupt → Eval α) (m : Machine) (ok : α → Machine → Prop) : Prop where
  ends : Ensures x m (fun a m' => m.LeadsTo sites m' ∧ ok a m') fun _ m' => m.LeadsTo sites m'
  watched : ∀ final signal, (x.leaves m).KeepsThis final → watched final signal m = x m

section Laws

variable {α β : Type} {x : Eval α} {xw : Machine → Interrupt → Eval α} {m m' m₁ m₂ : Machine}
  {ok ok' : α → Machine → Prop}

namespace Machine.LeadsTo

theorem refl (h : m.Tied sites) : m.LeadsTo sites m := ⟨.refl m, rfl, h⟩

theorem trans (h₁ : m.LeadsTo sites m₁) (h₂ : m₁.LeadsTo sites m₂) : m.LeadsTo sites m₂ :=
  ⟨h₁.toKeepsThis.trans h₂.toKeepsThis, h₂.current.trans h₁.current, h₂.tied⟩

theorem atStatement (h : m.LeadsTo sites m') (hm : m.AtStatement) : m'.AtStatement :=
  hm.mono h.toKeepsThis h.current

end Machine.LeadsTo

namespace Ties

theorem leadsTo (h : Ties sites x xw m ok) : m.LeadsTo sites (x.leaves m) :=
  (h.ends.mono (fun _ _ _ h => h.1) fun _ _ h => h).leaves

theorem mono (h : Ties sites x xw m ok)
    (hok : ∀ a m', m.LeadsTo sites m' → ok a m' → ok' a m') : Ties sites x xw m ok' :=
  ⟨h.ends.mono (fun a m' _ h => ⟨h.1, hok a m' h.1 h.2⟩) fun _ _ h => h, h.watched⟩

theorem step (m' : Machine) {a : α} (hx : x m = .ok a m') (hl : m.LeadsTo sites m') (hok : ok a m') :
    Ties sites x (fun _ _ => x) m ok :=
  ⟨(ensures_of_eq_ok hx).mpr ⟨hl, hok⟩, fun _ _ _ => rfl⟩

theorem halt {e : Interrupt} (hx : x m = .error e m) (hm : m.Tied sites) :
    Ties sites x (fun _ _ => x) m ok :=
  ⟨by rw [Ensures, hx]; exact .refl hm, fun _ _ _ => rfl⟩

theorem pure {a : α} (hm : m.Tied sites) (hok : ok a m) :
    Ties sites (Pure.pure a) (fun _ _ => Pure.pure a) m ok :=
  step m rfl (.refl hm) hok

theorem throw {e : Interrupt} (hm : m.Tied sites) :
    Ties sites (MonadExcept.throw e : Eval α) (fun _ _ => MonadExcept.throw e) m ok :=
  halt rfl hm

/-- **Parts that follow one another** keep `this` one after the other. -/
theorem bind {f : α → Eval β} {fw : Machine → Interrupt → α → Eval β} {ok' : β → Machine → Prop}
    (h : Ties sites x xw m ok)
    (hf : ∀ a m₁, m.LeadsTo sites m₁ → ok a m₁ →
      Ties sites (f a) (fun final signal => fw final signal a) m₁ ok') :
    Ties sites (x >>= f) (fun final signal => xw final signal >>= fw final signal) m ok' := by
  cases hx : x m with
  | error e m₁ =>
    have hl := h.ends.halt_of_eq hx
    refine ⟨by rw [Ensures, bind_of_error hx]; exact hl, fun final signal hfinal => ?_⟩
    rw [Eval.leaves, bind_of_error hx] at hfinal
    have hsame := h.watched final signal (by rwa [Eval.leaves, hx])
    rw [bind_of_error hx, bind_of_error (hsame.trans hx)]
  | ok a m₁ =>
    obtain ⟨hl, ha⟩ := h.ends.ok_of_eq hx
    have hrest := hf a m₁ hl ha
    refine ⟨?_, fun final signal hfinal => ?_⟩
    · rw [Ensures, bind_of_ok hx]
      exact hrest.ends.mono (fun _ _ _ h => ⟨hl.trans h.1, h.2⟩) fun _ _ h => hl.trans h
    · rw [Eval.leaves, bind_of_ok hx] at hfinal
      have hfinal₁ := hrest.leadsTo.toKeepsThis.trans hfinal
      have hsame := h.watched final signal (by rwa [Eval.leaves, hx])
      rw [bind_of_ok hx, bind_of_ok (hsame.trans hx)]
      exact hrest.watched final signal hfinal

theorem map {f : α → β} {ok' : β → Machine → Prop} (h : Ties sites x xw m ok)
    (hok : ∀ a m₁, ok a m₁ → ok' (f a) m₁) :
    Ties sites (f <$> x) (fun final signal => f <$> xw final signal) m ok' :=
  h.bind fun a m₁ hl ha => .pure hl.tied (hok a m₁ ha)

theorem get {f : Machine → Eval β} {fw : Machine → Interrupt → Machine → Eval β}
    {ok' : β → Machine → Prop} (h : Ties sites (f m) (fun final signal => fw final signal m) m ok') :
    Ties sites (MonadState.get >>= f) (fun final signal => MonadState.get >>= fw final signal) m
      ok' := ⟨h.ends, h.watched⟩

theorem within {k : ScopeId} (h : Ties sites x xw { m with current := k } ok)
    (hok : ∀ a m', ok a m' → ok a { m' with current := m.current }) :
    Ties sites (Eval.within k x) (fun final signal => Eval.within k (xw final signal)) m ok := by
  have hback {m' : Machine} (hl : Machine.LeadsTo sites { m with current := k } m') :
      m.LeadsTo sites { m' with current := m.current } :=
    ⟨⟨hl.size, hl.instances, hl.this⟩, rfl, hl.tied.of_eq rfl rfl⟩
  have hends := h.ends
  have hsame := h.watched
  unfold Ensures at hends
  unfold Eval.leaves at hsame
  cases hx : x { m with current := k } with
  | ok a m' =>
    rw [hx] at hends hsame
    have hrun : Eval.within k x m = .ok a { m' with current := m.current } := by
      rw [Eval.within, hx]
    refine ⟨(ensures_of_eq_ok hrun).mpr ⟨hback hends.1, hok a m' hends.2⟩, fun final signal hf => ?_⟩
    rw [Eval.leaves, hrun] at hf
    rw [hrun, Eval.within, hsame final signal ⟨hf.size, hf.instances, hf.this⟩]
  | error e m' =>
    rw [hx] at hends hsame
    have hrun : Eval.within k x m = .error e { m' with current := m.current } := by
      rw [Eval.within, hx]
    refine ⟨by rw [Ensures, hrun]; exact hback hends, fun final signal hf => ?_⟩
    rw [Eval.leaves, hrun] at hf
    rw [hrun, Eval.within, hsame final signal ⟨hf.size, hf.instances, hf.this⟩]

/-- An activity that may begin whatever the future holds. -/
theorem watched_of {w : Machine → Interrupt → Watch} {a : Activity} (h : Ties sites x xw m ok)
    (ha : ∀ final signal, (x.leaves m).KeepsThis final → (w final signal).allowed a m) :
    Ties sites x (fun final signal => Eval.watched (w final signal) a (xw final signal)) m ok :=
  ⟨h.ends, fun final signal hfinal =>
    (Eval.watched_of_allowed (ha final signal hfinal)).trans (h.watched final signal hfinal)⟩

end Ties

/-! ## Single steps -/

variable {v : Value} {name : String} {k : ScopeId}

theorem ties_fail (hm : m.Tied sites) (problem : RuntimeProblem) (place : Token) :
    Ties sites (Eval.fail problem place) (fun _ _ => Eval.fail problem place) m ok :=
  .throw hm

theorem ties_ofExcept (hm : m.Tied sites) (place : Token) (r : Except RuntimeProblem α)
    (hok : ∀ a, r = .ok a → ok a m) :
    Ties sites (Eval.ofExcept place r) (fun _ _ => Eval.ofExcept place r) m ok := by
  cases r with
  | ok a => exact .pure hm (hok a rfl)
  | error problem => exact ties_fail hm problem place

theorem ties_modifyGet {f : Machine → α × Machine} (hm : m.Tied sites)
    (hs : (f m).2.scopes = m.scopes) (hf : (f m).2.fields = m.fields)
    (hc : (f m).2.current = m.current) (hok : ok (f m).1 (f m).2) :
    Ties sites (modifyGet f) (fun _ _ => modifyGet f) m ok :=
  .step _ rfl ⟨.of_eq hs hf, hc, hm.of_eq hs hf⟩ hok

theorem ties_freshObject (hm : m.Tied sites) :
    Ties sites Eval.freshObject (fun _ _ => Eval.freshObject) m fun _ _ => True :=
  ties_modifyGet hm rfl rfl rfl trivial

theorem ties_write (hm : m.Tied sites) (text : String) :
    Ties sites (Eval.write text) (fun _ _ => Eval.write text) m fun _ _ => True :=
  ties_modifyGet hm rfl rfl rfl trivial

theorem ties_print (hm : m.Tied sites) (line : String) :
    Ties sites (Eval.print line) (fun _ _ => Eval.print line) m fun _ _ => True := by
  refine (ties_write hm _).bind fun answer _ hl _ => ?_
  cases answer with
  | none => exact .pure hl.tied trivial
  | some refusal => exact .throw hl.tied

theorem ties_define (hm : m.Tied sites) (hname : name ≠ Keyword.this.spelling)
    (hv : v.Tied sites m) :
    Ties sites (Eval.define k name v) (fun _ _ => Eval.define k name v) m fun _ _ => True :=
  .step (m.defined k name v) rfl ⟨.defined hname, rfl, hm.defined hname hv⟩ trivial

theorem ties_defineHere (hm : m.Tied sites) (hname : name ≠ Keyword.this.spelling)
    (hv : v.Tied sites m) :
    Ties sites (Eval.defineHere name v) (fun _ _ => Eval.defineHere name v) m fun _ _ => True := by
  unfold Eval.defineHere
  exact .get (ties_define hm hname hv)

theorem ties_openScope (hm : m.Tied sites) (parent : ScopeId) :
    Ties sites (Eval.openScope parent) (fun _ _ => Eval.openScope parent) m
      fun scope m' => scope < m'.scopes.size ∧ m'.this? scope = none :=
  .step (m.opened parent) rfl ⟨.opened m parent, rfl, hm.opened parent⟩
    ⟨m.lt_size_opened parent, (Scopes.own?_push _ _ _ _).trans (Scopes.own?_eq_none _ (Nat.le_refl _) _)⟩

theorem ties_read (hm : m.Tied sites) (use : Occurrence) :
    Ties sites (Eval.read use) (fun _ _ => Eval.read use) m fun v m' => v.Tied sites m' := by
  rcases Eval.read_cases use m with ⟨v, k, hv, hown⟩ | ⟨e, he⟩
  · exact .step m hv (.refl hm) (hm.values k _ v hown)
  · exact .halt he hm

theorem ties_assign (hm : m.Tied sites) {target : Occurrence}
    (hname : target.name.lexeme ≠ Keyword.this.spelling) (hv : v.Tied sites m) :
    Ties sites (Eval.assign target v) (fun _ _ => Eval.assign target v) m fun _ _ => True := by
  have hassign : Eval.assign target v m =
      ((m.holder? target).elim (Eval.fail (m.missing target) target.name)
        fun holder => Eval.define holder target.name.lexeme v) m := by
    rw [Eval.assign, Eval.locate, bind_assoc, get_bind]
    cases m.holder? target <;> rfl
  cases hh : m.holder? target with
  | some holder =>
    rw [hh] at hassign
    exact .step _ hassign ⟨.defined hname, rfl, hm.defined hname hv⟩ trivial
  | none =>
    rw [hh] at hassign
    exact .halt hassign hm

/-! ## Methods -/

theorem ties_bind (hm : m.Tied sites) {method : Closure} (hmethod : method.TiedMethod sites name)
    {id : InstanceId} {c : ClassObject} (hthis : Value.Tied sites m (.instance id c)) :
    Ties sites (Eval.bind method (.instance id c)) (fun _ _ => Eval.bind method (.instance id c)) m
      fun bound m' => bound.Tied sites m' ∧ bound.declaration = method.declaration :=
  .step _ (Eval.bind_eq method _ m) ⟨.bound method _, rfl, hm.bound method hthis⟩
    ⟨hmethod.bound _, rfl⟩

theorem ties_bindValue (hm : m.Tied sites) {method : Closure}
    (hmethod : method.TiedMethod sites name) {id : InstanceId} {c : ClassObject}
    (hthis : Value.Tied sites m (.instance id c)) :
    Ties sites (Eval.bindValue method (.instance id c))
      (fun _ _ => Eval.bindValue method (.instance id c)) m fun v m' => v.Tied sites m' := by
  unfold Eval.bindValue
  refine (ties_bind hm hmethod hthis).bind fun bound m₁ hl₁ hbound => ?_
  refine (ties_freshObject hl₁.tied).bind fun number m₂ hl₂ _ => .pure hl₂.tied ?_
  exact hbound.1.mono hl₂.toKeepsThis

theorem ties_getProperty (hm : m.Tied sites) {object : Value} (hobject : object.Tied sites m)
    (name : Token) :
    Ties sites (Eval.getProperty object name) (fun _ _ => Eval.getProperty object name) m
      fun v m' => v.Tied sites m' := by
  cases object with
  | «instance» id c =>
    unfold Eval.getProperty
    refine .get ?_
    cases hf : (m.fields[id]?).bind (·.get? name.lexeme) with
    | some v =>
      obtain ⟨b, hb, hv⟩ := Option.bind_eq_some_iff.mp hf
      exact .pure hm (hm.fields id b _ v hb hv)
    | none =>
      cases hmethod : c.method? name.lexeme with
      | some method => exact ties_bindValue hm (hobject.2 _ _ hmethod) hobject
      | none => exact ties_fail hm _ _
  | _ => exact ties_fail hm _ _

theorem ties_superMethod (hm : m.Tied sites) (keyword : Occurrence) (method : Token) :
    Ties sites (Eval.superMethod keyword method) (fun _ _ => Eval.superMethod keyword method) m
      fun v m' => v.Tied sites m' := by
  unfold Eval.superMethod
  refine .get ?_
  split
  · exact ties_fail hm _ _
  · split
    · rename_i superclass hsuper
      split
      · exact ties_fail hm _ _
      · split
        · exact ties_fail hm _ _
        · rename_i this hthis
          split
          · rename_i found hfound
            obtain ⟨k, hk⟩ := Scopes.exists_own?_of_getAt _ hsuper
            obtain ⟨k', hk'⟩ := Scopes.exists_own?_of_getAt _ hthis
            obtain ⟨id, c, rfl⟩ := hm.this k' this hk'
            exact ties_bindValue hm (hm.values k _ _ hk _ _ hfound) (hm.values k' _ _ hk')
          · exact ties_fail hm _ _
    · exact ties_fail hm _ _

end Laws

/-! ## Calls -/

section Rules

variable {m : Machine} {eval : Expr → Eval Value} {evalW : Machine → Interrupt → Expr → Eval Value}
  {run : Stmt → Eval Completion} {runW : Machine → Interrupt → Stmt → Eval Completion}
  {call : Value → List Value → Token → Eval Value}
  {callW : Machine → Interrupt → Value → List Value → Token → Eval Value}

variable (sites) in
/-- Evaluating expressions of the program keeps `this`. -/
def EvalTies (eval : Expr → Eval Value) (watched : Machine → Interrupt → Expr → Eval Value) : Prop :=
  ∀ {m} (p : Site) (e : Expr), m.Tied sites → e.sites p ⊆ sites →
    Ties sites (eval e) (fun final signal => watched final signal e) m fun v m' => v.Tied sites m'

variable (sites) in
/-- Running statements of the program keeps `this`. -/
def RunTies (run : Stmt → Eval Completion)
    (watched : Machine → Interrupt → Stmt → Eval Completion) : Prop :=
  ∀ {m} (p : Site) (s : Stmt), m.Tied sites → m.AtStatement → s.sites p ⊆ sites →
    Ties sites (run s) (fun final signal => watched final signal s) m fun c m' => c.Tied sites m'

variable (sites) in
/-- Calling values keeps `this`. -/
def CallTies (call : Value → List Value → Token → Eval Value)
    (watched : Machine → Interrupt → Value → List Value → Token → Eval Value) : Prop :=
  ∀ {m} (callee : Value) (arguments : List Value) (paren : Token), m.Tied sites →
    callee.Tied sites m → (∀ v ∈ arguments, v.Tied sites m) →
    Ties sites (call callee arguments paren)
      (fun final signal => watched final signal callee arguments paren) m fun v m' => v.Tied sites m'

theorem Completion.Tied.current {c : Completion} (h : c.Tied sites m) (k : ScopeId) :
    c.Tied sites { m with current := k } :=
  h.mono (.of_eq rfl rfl)

theorem ties_runAll (hrun : RunTies sites run runW) (ss : List Stmt) (p : Site)
    (hm : m.Tied sites) (hat : m.AtStatement) (hs : Stmt.sitesAll p ss ⊆ sites) :
    Ties sites (Eval.runAll run ss) (fun final signal => Eval.runAll (runW final signal) ss) m
      fun c m' => c.Tied sites m' := by
  induction ss generalizing m p with
  | nil => exact .pure hm trivial
  | cons s rest ih =>
    rw [Stmt.sitesAll, List.append_subset] at hs
    refine (hrun p s hm hat hs.1).bind fun c m₁ hl₁ hc => ?_
    cases c with
    | normal => exact ih (p.after s) hl₁.tied (hl₁.atStatement hat) hs.2
    | _ => exact .pure hl₁.tied hc

theorem ties_defineAll {k : ScopeId} {params : List Token} {arguments : List Value}
    (hm : m.Tied sites) (hparams : ∀ t ∈ params, t.lexeme ≠ Keyword.this.spelling)
    (hargs : ∀ v ∈ arguments, v.Tied sites m) :
    Ties sites (Eval.defineAll k params arguments)
      (fun _ _ => Eval.defineAll k params arguments) m fun _ _ => True := by
  induction params generalizing m arguments with
  | nil => exact .pure hm trivial
  | cons t params ih =>
    cases arguments with
    | nil => exact .pure hm trivial
    | cons v arguments =>
      obtain ⟨ht, hparams⟩ := List.forall_mem_cons.mp hparams
      obtain ⟨hv, hargs⟩ := List.forall_mem_cons.mp hargs
      exact (ties_define hm ht hv).bind fun _ m₁ hl₁ _ =>
        ih hl₁.tied hparams fun u hu => (hargs u hu).mono hl₁.toKeepsThis

theorem ties_runBody (hn : Unreserved sites) (hrun : RunTies sites run runW) {c : Closure}
    {arguments : List Value} (hm : m.Tied sites) (hc : c.declaration.Known sites)
    (hargs : ∀ v ∈ arguments, v.Tied sites m) :
    Ties sites (Eval.runBody run c arguments)
      (fun final signal => Eval.runBody (runW final signal) c arguments) m
      fun ended m' => ended.Tied sites m' := by
  obtain ⟨⟨name, params, body, span⟩, scope, isInitializer⟩ := c
  obtain ⟨kind, p, hs⟩ := hc
  rw [Function.sites, List.append_subset] at hs
  obtain ⟨hnames, hbody⟩ := hs
  have hparams : ∀ t ∈ params, t.lexeme ≠ Keyword.this.spelling := fun t ht =>
    hn _ t (hnames (List.mem_map_of_mem (List.mem_map_of_mem ht))) .this
  refine (ties_openScope hm scope).bind fun k m₁ hl₁ hk => ?_
  refine (ties_defineAll hl₁.tied hparams fun v hv => (hargs v hv).mono hl₁.toKeepsThis).bind
    fun _ m₂ hl₂ _ => ?_
  have hat : ({ m₂ with current := k } : Machine).AtStatement :=
    ⟨Nat.lt_of_lt_of_le hk.1 hl₂.size, (hl₂.this k hk.1).trans hk.2⟩
  have htied : ({ m₂ with current := k } : Machine).Tied sites := hl₂.tied.of_eq rfl rfl
  exact (ties_runAll hrun body _ htied hat hbody).within fun ended m' h => h.current _

theorem ties_invoke (hn : Unreserved sites) (hrun : RunTies sites run runW) {c : Closure}
    {arguments : List Value} (hm : m.Tied sites) (hc : c.declaration.Known sites)
    (hargs : ∀ v ∈ arguments, v.Tied sites m) :
    Ties sites (Eval.invoke run c arguments)
      (fun final signal => Eval.invoke (runW final signal) c arguments) m
      fun v m' => v.Tied sites m' := by
  simp only [Eval.invoke_eq]
  refine (ties_runBody hn hrun hm hc hargs).bind fun ended m₁ hl₁ hended => ?_
  unfold Eval.resultOf
  split
  · refine .get (.pure hl₁.tied ?_)
    cases hthis : m₁.scopes.getAt c.scope 0 Keyword.this.spelling with
    | none => trivial
    | some v =>
      obtain ⟨k, hk⟩ := Scopes.exists_own?_of_getAt _ hthis
      exact hl₁.tied.values k _ v hk
  · cases ended with
    | «return» v => exact .pure hl₁.tied hended
    | _ => exact .pure hl₁.tied trivial

theorem ties_callRule (hn : Unreserved sites) (hrun : RunTies sites run runW) {callee : Value}
    {arguments : List Value} {paren : Token} (hm : m.Tied sites) (hcallee : callee.Tied sites m)
    (hargs : ∀ v ∈ arguments, v.Tied sites m) :
    Ties sites (Eval.callRule run callee arguments paren)
      (fun final signal => Eval.callRule (runW final signal) callee arguments paren) m
      fun v m' => v.Tied sites m' := by
  cases callee with
  | function id c =>
    by_cases hlen : arguments.length = c.arity
    · simp only [Eval.callRule_function hlen]
      exact ties_invoke hn hrun hm hcallee.known hargs
    · simp only [Eval.callRule, Eval.checkArity_of_ne hlen]
      exact ties_fail hm _ _
  | native f =>
    cases f
    simp only [Eval.callRule, Eval.checkArity]
    split
    · exact ties_modifyGet hm rfl rfl rfl trivial
    · exact ties_fail hm _ _
  | «class» c =>
    by_cases hlen : arguments.length = c.arity
    · have hfresh : Ties sites (Eval.freshInstance c) (fun _ _ => Eval.freshInstance c) m
          fun v m' => v = .instance m.fields.size c ∧ v.Tied sites m' := by
        refine .step _ (Eval.freshInstance_eq c m) ⟨.instantiated m, rfl, hm.instantiated⟩
          ⟨rfl, ?_, hcallee⟩
        rw [Machine.instantiated, Array.size_push]
        exact Nat.lt_succ_self _
      cases hi : c.initializer? with
      | none =>
        simp only [Eval.callRule_class_none hlen hi]
        exact hfresh.mono fun _ _ _ h => h.2
      | some f =>
        simp only [Eval.callRule_class hlen hi]
        refine hfresh.bind fun this m₁ hl₁ hthis => ?_
        obtain ⟨rfl, hthis⟩ := hthis
        refine (ties_bind hl₁.tied (hcallee _ _ hi) hthis).bind fun bound m₂ hl₂ hbound => ?_
        refine (ties_invoke hn hrun hl₂.tied hbound.1.known fun v hv =>
          (hargs v hv).mono (hl₁.trans hl₂).toKeepsThis).bind fun _ m₃ hl₃ _ => .pure hl₃.tied ?_
        exact hthis.mono (hl₂.trans hl₃).toKeepsThis
    · simp only [Eval.callRule, Eval.checkArity_of_ne hlen]
      exact ties_fail hm _ _
  | _ => exact ties_fail hm _ _

/-! ## Expressions -/

theorem Value.Plain.tied {v : Value} (h : v.Plain) : v.Tied sites m := by
  cases v <;> trivial

theorem ties_arguments (heval : EvalTies sites eval evalW) (p : Site) (es : List Expr)
    (hm : m.Tied sites) (hs : p.mark (Expr.marksAll es) ⊆ sites) :
    Ties sites (es.mapM eval) (fun final signal => es.mapM (evalW final signal)) m
      fun vs m' => ∀ v ∈ vs, v.Tied sites m' := by
  induction es generalizing m with
  | nil => exact .pure hm (by simp)
  | cons e rest ih =>
    rw [Expr.marksAll, Site.mark_append_subset] at hs
    simp only [List.mapM_cons]
    refine (heval p e hm hs.1).bind fun v m₁ hl₁ hv => ?_
    refine (ih hl₁.tied hs.2).bind fun vs m₂ hl₂ hvs => .pure hl₂.tied ?_
    exact List.forall_mem_cons.mpr ⟨hv.mono hl₂.toKeepsThis, hvs⟩

theorem ties_evaluateRule (hn : Unreserved sites) (heval : EvalTies sites eval evalW)
    (hcall : CallTies sites call callW) (p : Site) (e : Expr) (hm : m.Tied sites)
    (hs : e.sites p ⊆ sites) :
    Ties sites (Eval.evaluateRule eval call e)
      (fun final signal => Eval.evaluateRule (evalW final signal) (callW final signal) e) m
      fun v m' => v.Tied sites m' := by
  rw [Expr.sites] at hs
  cases e with
  | literal constant => exact .pure hm (by cases constant <;> trivial)
  | grouping inner => exact heval p inner hm hs
  | unary op operator operand =>
    exact (heval p operand hm hs).bind fun v m₁ hl₁ _ =>
      ties_ofExcept hl₁.tied operator _ fun _ h => (UnaryOp.plain_of_apply h).tied
  | binary left op operator right =>
    rw [Expr.marks, Site.mark_append_subset] at hs
    exact (heval p left hm hs.1).bind fun a m₁ hl₁ _ =>
      (heval p right hl₁.tied hs.2).bind fun b m₂ hl₂ _ =>
        ties_ofExcept hl₂.tied operator _ fun _ h => (BinaryOp.plain_of_apply h).tied
  | logical left op operator right =>
    rw [Expr.marks, Site.mark_append_subset] at hs
    refine (heval p left hm hs.1).bind fun a m₁ hl₁ ha => ?_
    split
    · exact .pure hl₁.tied ha
    · exact heval p right hl₁.tied hs.2
  | «variable» use => exact ties_read hm use
  | assign target e =>
    rw [Expr.marks, Site.mark_cons_subset, Site.mark_cons_subset] at hs
    refine (heval p e hm hs.2.2).bind fun v m₁ hl₁ hv => ?_
    exact (ties_assign hl₁.tied (hn _ _ hs.2.1 .this) hv).bind fun _ m₂ hl₂ _ =>
      .pure hl₂.tied (hv.mono hl₂.toKeepsThis)
  | call callee arguments paren =>
    rw [Expr.marks, Site.mark_append_subset] at hs
    refine (heval p callee hm hs.1).bind fun f m₁ hl₁ hf => ?_
    refine (ties_arguments heval p arguments hl₁.tied hs.2).bind fun vs m₂ hl₂ hvs => ?_
    exact hcall f vs paren hl₂.tied (hf.mono hl₂.toKeepsThis) hvs
  | get object name =>
    exact (heval p object hm hs).bind fun v m₁ hl₁ hv => ties_getProperty hl₁.tied hv name
  | set object name e =>
    rw [Expr.marks, Site.mark_append_subset] at hs
    refine (heval p object hm hs.1).bind fun v m₁ hl₁ _ => ?_
    cases v with
    | «instance» id c =>
      refine (heval p e hl₁.tied hs.2).bind fun w m₂ hl₂ hw => ?_
      obtain ⟨hkeeps, htied⟩ := hl₂.tied.set_field hw id name.lexeme
      have hset : Ties sites (Eval.setField id name.lexeme w)
          (fun _ _ => Eval.setField id name.lexeme w) m₂ fun _ m' => w.Tied sites m' :=
        .step _ rfl ⟨hkeeps, rfl, htied⟩ (hw.mono hkeeps)
      exact hset.bind fun _ m₃ hl₃ hw₃ => .pure hl₃.tied hw₃
    | _ => exact ties_fail hl₁.tied _ _
  | this keyword => exact ties_read hm keyword
  | super keyword method => exact ties_superMethod hm keyword method

/-! ## Statements -/

theorem ties_optional (heval : EvalTies sites eval evalW) (p : Site) (e : Option Expr)
    (hm : m.Tied sites) (hs : Expr.sitesOption p e ⊆ sites) :
    Ties sites (Eval.optional eval e) (fun final signal => Eval.optional (evalW final signal) e) m
      fun v m' => v.Tied sites m' := by
  cases e with
  | none => exact .pure hm trivial
  | some e => exact heval p e hm hs

theorem ties_conditionOf (heval : EvalTies sites eval evalW) (p : Site) (e : Option Expr)
    (hm : m.Tied sites) (hs : Expr.sitesOption p e ⊆ sites) :
    Ties sites (Eval.conditionOf eval e)
      (fun final signal => Eval.conditionOf (evalW final signal) e) m fun _ _ => True := by
  cases e with
  | none => exact .pure hm trivial
  | some e => exact (heval p e hm hs).map fun _ _ _ => trivial

theorem ties_loop {condition : Eval Bool} {body : Eval Completion} {step : Eval Unit}
    {conditionW : Machine → Interrupt → Eval Bool} {bodyW : Machine → Interrupt → Eval Completion}
    {stepW : Machine → Interrupt → Eval Unit}
    (hc : ∀ {m}, m.Tied sites → Ties sites condition conditionW m fun _ _ => True)
    (hb : ∀ {m}, m.Tied sites → m.AtStatement →
      Ties sites body bodyW m fun c m' => c.Tied sites m')
    (hs : ∀ {m}, m.Tied sites → Ties sites step stepW m fun _ _ => True)
    (fuel : Nat) (hm : m.Tied sites) (hat : m.AtStatement) :
    Ties sites (Eval.loop condition body step fuel)
      (fun final signal => Eval.loop (conditionW final signal) (bodyW final signal)
        (stepW final signal) fuel) m fun c m' => c.Tied sites m' := by
  induction fuel generalizing m with
  | zero => exact .throw hm
  | succ fuel ih =>
    refine (hc hm).bind fun goesOn m₁ hl₁ _ => ?_
    cases goesOn with
    | false => exact .pure hl₁.tied trivial
    | true =>
      refine (hb hl₁.tied (hl₁.atStatement hat)).bind fun ended m₂ hl₂ hended => ?_
      have hat₂ := (hl₁.trans hl₂).atStatement hat
      cases ended with
      | normal => exact (hs hl₂.tied).bind fun _ _ hl₃ _ => ih hl₃.tied (hl₃.atStatement hat₂)
      | «continue» => exact (hs hl₂.tied).bind fun _ _ hl₃ _ => ih hl₃.tied (hl₃.atStatement hat₂)
      | «break» => exact .pure hl₂.tied trivial
      | «return» v => exact .pure hl₂.tied hended

theorem ties_declareFunction (hm : m.Tied sites) (hat : m.AtStatement) {f : Function}
    (hname : f.name.lexeme ≠ Keyword.this.spelling) (hf : f.Known sites) :
    Ties sites (Eval.declareFunction f) (fun _ _ => Eval.declareFunction f) m fun _ _ => True := by
  unfold Eval.declareFunction
  refine .get ((ties_freshObject hm).bind fun id m₁ hl₁ _ => ?_)
  have hc : Closure.Tied sites m ⟨f, m.current, false⟩ :=
    ⟨hf, hat.lt_size, fun _ => rfl, fun v hv => by cases hat.free.symm.trans hv⟩
  exact ties_defineHere hl₁.tied hname (hc.mono hl₁.toKeepsThis)

theorem ties_declareClass (hm : m.Tied sites) {p : Site} {c : Class}
    (hname : c.name.lexeme ≠ Keyword.this.spelling) (hs : (Stmt.class c).sites p ⊆ sites) :
    Ties sites (Eval.declareClass c) (fun _ _ => Eval.declareClass c) m fun _ _ => True := by
  have hmethods {scope : ScopeId} (name : String) (f : Closure)
      (hf : (Eval.methodTable scope c.methods).get? name = some f) : f.TiedMethod sites name :=
    Closure.tiedMethod_of_methodTable hs hf
  cases hsuper : c.superclass with
  | none =>
    have htied : m.numbered.Tied sites := hm.of_eq rfl rfl
    have hkeeps : m.KeepsThis m.numbered := .of_eq rfl rfl
    refine .step _ (Eval.declareClass_of_none hsuper) ⟨hkeeps.trans (.defined hname), rfl,
      htied.defined hname ?_⟩ trivial
    exact ClassObject.tied_of hmethods nofun
  | some use =>
    by_cases hread : ∃ parent, Eval.read use m = .ok (.class parent) m
    · obtain ⟨parent, hread⟩ := hread
      have hparent : parent.Tied sites := (ties_read hm use).ends.ok_of_eq hread |>.2
      have hinherited : (m.inherited parent).Tied sites :=
        (hm.opened m.current).defined (by decide) hparent
      have hkeeps : m.KeepsThis (m.inherited parent) :=
        (Machine.KeepsThis.opened m m.current).trans (.defined (by decide))
      have htied : (m.inherited parent).numbered.Tied sites := hinherited.of_eq rfl rfl
      have hkeeps' : m.KeepsThis (m.inherited parent).numbered := hkeeps.trans (.of_eq rfl rfl)
      refine .step _ (Eval.declareClass_of_read hsuper hread) ⟨hkeeps'.trans (.defined hname), rfl,
        htied.defined hname ?_⟩ trivial
      refine ClassObject.tied_of hmethods fun parent' h => ?_
      cases h
      exact hparent
    · obtain ⟨e, he⟩ := Eval.declareClass_of_error hsuper fun parent h => hread ⟨parent, h⟩
      exact .halt he hm

theorem ties_executeRule (hn : Unreserved sites) (heval : EvalTies sites eval evalW)
    (hrun : RunTies sites run runW) (fuel : Nat) (p : Site) (s : Stmt) (hm : m.Tied sites)
    (hat : m.AtStatement) (hs : s.sites p ⊆ sites) :
    Ties sites (Eval.executeRule eval run fuel s)
      (fun final signal => Eval.executeRule (evalW final signal) (runW final signal) fuel s) m
      fun c m' => c.Tied sites m' := by
  have hall := hs
  rw [Stmt.sites.eq_def, List.cons_subset] at hs
  replace hs := hs.2
  -- a scope that is opened for statements is one in which they may stand
  have inside {x : Eval Completion} {xw : Machine → Interrupt → Eval Completion}
      (hx : ∀ {m}, m.Tied sites → m.AtStatement → Ties sites x xw m fun c m' => c.Tied sites m') :
      Ties sites (Eval.openScope m.current >>= fun scope => Eval.within scope x)
        (fun final signal => Eval.openScope m.current >>= fun scope =>
          Eval.within scope (xw final signal)) m fun c m' => c.Tied sites m' := by
    refine (ties_openScope hm m.current).bind fun k m₁ hl₁ hk => ?_
    have htied : ({ m₁ with current := k } : Machine).Tied sites := hl₁.tied.of_eq rfl rfl
    exact (hx htied ⟨hk.1, hk.2⟩).within fun c m' hc => hc.current _
  cases s with
  | expression e => exact (heval p e hm hs).bind fun _ _ hl₁ _ => .pure hl₁.tied trivial
  | print e =>
    exact (heval p e hm hs).bind fun v _ hl₁ _ =>
      (ties_print hl₁.tied v.text).bind fun _ _ hl₂ _ => .pure hl₂.tied trivial
  | var name initializer =>
    rw [List.cons_subset] at hs
    exact (ties_optional heval _ initializer hm hs.2).bind fun v _ hl₁ hv =>
      (ties_defineHere hl₁.tied (hn _ _ hs.1 .this) hv).bind fun _ _ hl₂ _ => .pure hl₂.tied trivial
  | block body => exact .get (inside fun hm hat => ties_runAll hrun body _ hm hat hs)
  | ifElse condition thenBranch elseBranch =>
    rw [List.append_subset, List.append_subset] at hs
    refine (heval p condition hm hs.1.1).bind fun v m₁ hl₁ _ => ?_
    split
    · exact hrun p thenBranch hl₁.tied (hl₁.atStatement hat) hs.1.2
    · cases elseBranch with
      | none => exact .pure hl₁.tied trivial
      | some s => exact hrun p s hl₁.tied (hl₁.atStatement hat) hs.2
  | whileLoop condition body =>
    rw [List.append_subset] at hs
    exact ties_loop (fun hm => (heval p condition hm hs.1).map fun _ _ _ => trivial)
      (fun hm hat => hrun _ body hm hat hs.2) (fun hm => .pure hm trivial) fuel hm hat
  | forLoop initializer condition increment body =>
    simp only [List.append_subset] at hs
    obtain ⟨⟨⟨hinitializer, hcondition⟩, hincrement⟩, hbody⟩ := hs
    have hloop {m} (hm : m.Tied sites) (hat : m.AtStatement) :
        Ties sites
          (Eval.loop (Eval.conditionOf eval condition) (run body)
            (Eval.optional eval increment >>= fun _ => pure ()) fuel)
          (fun final signal => Eval.loop (Eval.conditionOf (evalW final signal) condition)
            (runW final signal body) (Eval.optional (evalW final signal) increment >>= fun _ => pure ())
            fuel) m fun c m' => c.Tied sites m' :=
      ties_loop (fun hm => ties_conditionOf heval _ condition hm hcondition)
        (fun hm hat => hrun _ body hm hat hbody)
        (fun hm => (ties_optional heval _ increment hm hincrement).bind
          fun _ _ hl₁ _ => .pure hl₁.tied trivial) fuel hm hat
    refine .get (inside fun hm hat => ?_)
    cases initializer with
    | none => exact hloop hm hat
    | some s =>
      exact (hrun _ s hm hat hinitializer).bind fun _ _ hl₁ _ => hloop hl₁.tied (hl₁.atStatement hat)
  | function declaration =>
    rw [List.cons_subset] at hs
    exact (ties_declareFunction hm hat (hn _ _ hs.1 .this) ⟨_, _, hs.2⟩).bind
      fun _ _ hl₁ _ => .pure hl₁.tied trivial
  | «class» declaration =>
    have hname : (p, Mark.name declaration.name) ∈ sites := by
      obtain ⟨name, superclass, methods, span⟩ := declaration
      exact hs (by simp [Class.sites])
    exact (ties_declareClass hm (hn _ _ hname .this) hall).bind
      fun _ _ hl₁ _ => .pure hl₁.tied trivial
  | «return» keyword value =>
    rw [List.cons_subset] at hs
    exact (ties_optional heval p value hm hs.2).bind fun v _ hl₁ hv => .pure hl₁.tied hv
  | «break» keyword => exact .pure hm trivial
  | «continue» keyword => exact .pure hm trivial

end Rules

/-! ## Watched runs -/

/-- The machine that an activity leaves. -/
def Activity.leaves (m : Machine) : Activity → Machine
  | .evaluate fuel e => (Eval.evaluate fuel e).leaves m
  | .execute fuel s => (Eval.execute fuel s).leaves m
  | .call fuel callee arguments paren => (Eval.call fuel callee arguments paren).leaves m
  | .program fuel s => (Eval.execute fuel s).leaves m

/-- An activity of the program begins in a tied machine. -/
def Activity.Tied (sites : List (Site × Mark)) (m : Machine) : Activity → Prop
  | .evaluate _ e => m.Tied sites ∧ ∃ p, e.sites p ⊆ sites
  | .execute _ s => m.Tied sites ∧ m.AtStatement ∧ ∃ p, s.sites p ⊆ sites
  | .call _ callee arguments _ => m.Tied sites ∧ callee.Tied sites m ∧
      ∀ v ∈ arguments, v.Tied sites m
  | .program _ s => m.Tied sites ∧ m.AtStatement ∧ ∃ p, s.sites p ⊆ sites

/-- The watch allows what begins in a tied machine, as long as `this` is later what it is behind it. -/
def Foresees (sites : List (Site × Mark)) (w : Machine → Interrupt → Watch) : Prop :=
  ∀ final signal a m, a.Tied sites m → (a.leaves m).KeepsThis final → (w final signal).allowed a m

/-- **Runs of every depth keep `this`**, and to watch for what is foreseen makes no difference. -/
theorem ties_runs (hn : Unreserved sites) {w : Machine → Interrupt → Watch} (hw : Foresees sites w)
    (fuel : Nat) :
    EvalTies sites (Eval.evaluate fuel)
        (fun final signal => Eval.watchedEvaluate (w final signal) fuel) ∧
      RunTies sites (Eval.execute fuel)
        (fun final signal => Eval.watchedExecute (w final signal) fuel) ∧
      CallTies sites (Eval.call fuel)
        (fun final signal => Eval.watchedCall (w final signal) fuel) := by
  induction fuel with
  | zero =>
    exact ⟨fun _ _ hm _ => .throw hm, fun _ _ hm _ _ => .throw hm, fun _ _ _ hm _ _ => .throw hm⟩
  | succ fuel ih =>
    obtain ⟨heval, hrun, hcall⟩ := ih
    refine ⟨fun p e hm hs => ?_, fun p s hm hat hs => ?_, fun callee arguments paren hm hc ha => ?_⟩
    · exact (ties_evaluateRule hn heval hcall p e hm hs).watched_of fun final signal hfinal =>
        hw final signal (.evaluate (fuel + 1) e) _ ⟨hm, p, hs⟩ hfinal
    · exact (ties_executeRule hn heval hrun fuel p s hm hat hs).watched_of fun final signal hfinal =>
        hw final signal (.execute (fuel + 1) s) _ ⟨hm, hat, p, hs⟩ hfinal
    · exact (ties_callRule hn hrun hm hc ha).watched_of fun final signal hfinal =>
        hw final signal (.call (fuel + 1) callee arguments paren) _ ⟨hm, hc, ha⟩ hfinal

theorem foresees_everything : Foresees sites fun _ signal => .everything signal :=
  fun _ _ _ _ _ _ => trivial

end Lox
