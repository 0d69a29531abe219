import Lox.Proofs.Machine.SafeSteps

/-!
# Runs of a legal program

The rules of evaluation lead from good machines to good machines, and so does a run, whatever is
watched, as long as the watch allows what begins in a good machine.

* `safe_loop`, `safe_evaluateRule`, `safe_executeRule`: the rules of evaluation;
* `Begins`: an activity begins in a good machine, `Permits`: a watch allows all that does;
* **`safe_evaluate`**, **`safe_execute`**: watched runs of every depth.
-/

namespace Lox

variable {known : List (Site × Mark)} {m : Machine} {o : Origins}

/-! ## Operators -/

/-- A value that leads to no function of the program. -/
def Value.Plain : Value → Prop
  | .function _ _ | .class _ | .instance _ _ => False
  | _ => True

theorem Value.Plain.good {v : Value} (h : v.Plain) : v.Good known o m := by
  cases v <;> trivial

theorem UnaryOp.plain_of_apply {op : UnaryOp} {v w : Value} (h : op.apply v = .ok w) : w.Plain := by
  unfold UnaryOp.apply at h
  split at h <;> cases h <;> trivial

theorem BinaryOp.plain_of_applyNumbers {op : BinaryOp} {a b : Float} {v : Value}
    (h : op.applyNumbers a b = .ok v) : v.Plain := by
  unfold BinaryOp.applyNumbers at h
  split at h
  case h_4 => split at h <;> cases h; trivial
  all_goals cases h; trivial

theorem BinaryOp.plain_of_apply {op : BinaryOp} {a b v : Value} (h : op.apply a b = .ok v) :
    v.Plain := by
  unfold BinaryOp.apply at h
  split at h
  · cases h; trivial
  · cases h; trivial
  · split at h <;> cases h <;> trivial
  · unfold BinaryOp.onNumbers at h
    split at h
    · exact plain_of_applyNumbers h
    · cases h
    · cases h

/-! ## Expressions -/

section Rules

variable {eval : Expr → Eval Value} {evalW : Ending → Expr → Eval Value}
  {run : Stmt → Eval Completion} {runW : Ending → Stmt → Eval Completion}
  {call : Value → List Value → Token → Eval Value}
  {callW : Ending → Value → List Value → Token → Eval Value} {p : Site}

theorem Site.mark_append_subset {marks marks' : List Mark} :
    p.mark (marks ++ marks') ⊆ known ↔ p.mark marks ⊆ known ∧ p.mark marks' ⊆ known := by
  rw [Site.mark, List.map_append, List.append_subset]
  rfl

theorem Site.mark_cons_subset {mark : Mark} {marks : List Mark} :
    p.mark (mark :: marks) ⊆ known ↔ (p, mark) ∈ known ∧ p.mark marks ⊆ known := by
  rw [Site.mark, List.map_cons, List.cons_subset]
  rfl

theorem safe_arguments (heval : EvalSafe known eval evalW) (es : List Expr) (hg : m.Good known o)
    (hm : Mirrors m o m.current p.frames) (hs : p.mark (Expr.marksAll es) ⊆ known) :
    Safe known (es.mapM eval) (fun final => es.mapM (evalW final)) m o fun vs m' o' =>
      ∀ v ∈ vs, v.Good known o' m' := by
  induction es generalizing m o with
  | nil => exact .pure hg (by simp)
  | cons e rest ih =>
    rw [Expr.marksAll, Site.mark_append_subset] at hs
    simp only [List.mapM_cons]
    refine (heval p e hg hm hs.1).bind fun v m₁ o₁ hg₁ hr₁ hv => ?_
    refine (ih hg₁ (hm.resumes hr₁) hs.2).bind fun vs m₂ o₂ hg₂ hr₂ hvs => .pure hg₂ ?_
    exact List.forall_mem_cons.mpr ⟨hv.extends hr₂.toExtends, hvs⟩

theorem safe_evaluateRule (heval : EvalSafe known eval evalW) (hcall : CallSafe known call callW)
    (e : Expr) (hg : m.Good known o) (hm : Mirrors m o m.current p.frames)
    (hs : e.sites p ⊆ known) :
    SafeWith known (fun o' => Labelled o' (e.Opens eval m)) (Eval.evaluateRule eval call e)
      (fun final => Eval.evaluateRule (evalW final) (callW final) e) m o
      fun v m' o' => v.Good known o' m' := by
  have closed {x : Eval Value} {xw : Ending → Eval Value}
      (h : Safe known x xw m o fun v m' o' => v.Good known o' m')
      (hnone : ∀ k outer kind, ¬ e.Opens eval m k outer kind) :
      SafeWith known (fun o' => Labelled o' (e.Opens eval m)) x xw m o
        fun v m' o' => v.Good known o' m' :=
    h.with_origins fun _ _ k outer kind hopens => absurd hopens (hnone k outer kind)
  rw [Expr.sites] at hs
  cases e with
  | literal constant => exact closed (.pure hg (by cases constant <;> trivial)) nofun
  | grouping inner => exact closed (heval p inner hg hm hs) nofun
  | unary op operator operand =>
    refine closed ((heval p operand hg hm hs).bind fun v m₁ o₁ hg₁ _ _ => ?_) nofun
    exact safe_ofExcept hg₁ operator _ fun _ h => (UnaryOp.plain_of_apply h).good
  | binary left op operator right =>
    rw [Expr.marks, Site.mark_append_subset] at hs
    refine closed ((heval p left hg hm hs.1).bind fun a m₁ o₁ hg₁ hr₁ _ => ?_) nofun
    refine (heval p right hg₁ (hm.resumes hr₁) hs.2).bind fun b m₂ o₂ hg₂ _ _ => ?_
    exact safe_ofExcept hg₂ operator _ fun _ h => (BinaryOp.plain_of_apply h).good
  | logical left op operator right =>
    rw [Expr.marks, Site.mark_append_subset] at hs
    refine closed ((heval p left hg hm hs.1).bind fun a m₁ o₁ hg₁ hr₁ ha => ?_) nofun
    split
    · exact .pure hg₁ ha
    · exact heval p right hg₁ (hm.resumes hr₁) hs.2
  | «variable» use => exact closed ((safe_read hg).mono fun _ _ _ _ _ h => h.2) nofun
  | assign target e =>
    rw [Expr.marks, Site.mark_cons_subset, Site.mark_cons_subset] at hs
    refine closed ((heval p e hg hm hs.2.2).bind fun v m₁ o₁ hg₁ hr₁ hv => ?_) nofun
    refine (safe_assign hg₁ (hg.legal _ hs.2.1) hv).bind fun _ m₂ o₂ hg₂ hr₂ _ => ?_
    exact .pure hg₂ (hv.extends hr₂.toExtends)
  | call callee arguments paren =>
    rw [Expr.marks, Site.mark_append_subset] at hs
    refine closed ((heval p callee hg hm hs.1).bind fun f m₁ o₁ hg₁ hr₁ hf => ?_) nofun
    refine (safe_arguments heval arguments hg₁ (hm.resumes hr₁) hs.2).bind
      fun vs m₂ o₂ hg₂ hr₂ hvs => ?_
    exact hcall f vs paren hg₂ (hf.extends hr₂.toExtends) hvs
  | get object name =>
    refine SafeWith.bind (heval p object hg hm hs) (fun v m₁ o₁ hx _ hg₁ _ hv => ?_)
      fun e m₁ o₁ hx _ _ k outer kind hopens => ?_
    · refine (safe_getProperty hg₁ hv).imp fun o' hopened k outer kind hopens => ?_
      cases hopens with
      | get hobject hfield hmethod =>
        cases hx.symm.trans hobject
        exact hopened _ _ _ rfl hfield hmethod
    · cases hopens with
      | get hobject _ _ => cases hx.symm.trans hobject
  | set object name e =>
    rw [Expr.marks, Site.mark_append_subset] at hs
    refine closed ((heval p object hg hm hs.1).bind fun v m₁ o₁ hg₁ hr₁ _ => ?_) nofun
    cases v with
    | «instance» id c =>
      refine (heval p e hg₁ (hm.resumes hr₁) hs.2).bind fun w m₂ o₂ hg₂ _ hw => ?_
      refine (safe_setField hg₂ hw id name.lexeme).bind fun _ m₃ o₃ hg₃ hr₃ _ => ?_
      exact .pure hg₃ (hw.extends hr₃.toExtends)
    | _ => exact .throw hg₁
  | this keyword => exact closed ((safe_read hg).mono fun _ _ _ _ _ h => h.2) nofun
  | super keyword method => exact safe_superMethod hg

/-! ## Statements -/

theorem Completion.Fits.current {c : Completion} (h : c.Fits known p m o) (k : ScopeId) :
    c.Fits known p { m with current := k } o := by
  cases c with
  | «return» v => exact ⟨h.1.extends (.of_scopes_eq rfl rfl rfl), h.2⟩
  | _ => exact h

theorem safe_optional (heval : EvalSafe known eval evalW) (e : Option Expr) (hg : m.Good known o)
    (hm : Mirrors m o m.current p.frames) (hs : Expr.sitesOption p e ⊆ known) :
    Safe known (Eval.optional eval e) (fun final => Eval.optional (evalW final) e) m o
      fun v m' o' => v.Good known o' m' := by
  cases e with
  | none => exact .pure hg trivial
  | some e => exact heval p e hg hm hs

theorem safe_conditionOf (heval : EvalSafe known eval evalW) (e : Option Expr)
    (hg : m.Good known o) (hm : Mirrors m o m.current p.frames)
    (hs : Expr.sitesOption p e ⊆ known) :
    Safe known (Eval.conditionOf eval e) (fun final => Eval.conditionOf (evalW final) e) m o
      fun _ _ _ => True := by
  cases e with
  | none => exact .pure hg trivial
  | some e => exact (heval p e hg hm hs).map fun _ _ _ _ _ _ => trivial

/-- A loop passes through the same site again and again. What its body ends with leaves it only if
it is a `return`. -/
theorem safe_loop {condition : Eval Bool} {body : Eval Completion} {step : Eval Unit}
    {conditionW : Ending → Eval Bool} {bodyW : Ending → Eval Completion}
    {stepW : Ending → Eval Unit}
    (hc : ∀ {m o}, m.Good known o → Mirrors m o m.current p.frames →
      Safe known condition conditionW m o fun _ _ _ => True)
    (hb : ∀ {m o}, m.Good known o → Mirrors m o m.current p.frames →
      Safe known body bodyW m o fun c m' o' => c.Fits known p.enterLoop m' o')
    (hs : ∀ {m o}, m.Good known o → Mirrors m o m.current p.frames →
      Safe known step stepW m o fun _ _ _ => True)
    (fuel : Nat) (hg : m.Good known o) (hm : Mirrors m o m.current p.frames) :
    Safe known (Eval.loop condition body step fuel)
      (fun final => Eval.loop (conditionW final) (bodyW final) (stepW final) fuel) m o
      fun c m' o' => c.Fits known p m' o' := by
  induction fuel generalizing m o with
  | zero => exact safe_outOfFuel hg
  | succ fuel ih =>
    refine (hc hg hm).bind fun goesOn m₁ o₁ hg₁ hr₁ _ => ?_
    cases goesOn with
    | false => exact .pure hg₁ trivial
    | true =>
      have hm₁ := hm.resumes hr₁
      refine (hb hg₁ hm₁).bind fun ended m₂ o₂ hg₂ hr₂ hended => ?_
      have again : Safe known (step >>= fun _ => Eval.loop condition body step fuel)
          (fun final => stepW final >>= fun _ =>
            Eval.loop (conditionW final) (bodyW final) (stepW final) fuel) m₂ o₂
          fun c m' o' => c.Fits known p m' o' := by
        have hm₂ := hm₁.resumes hr₂
        exact (hs hg₂ hm₂).bind fun _ m₃ o₃ hg₃ hr₃ _ => ih hg₃ (hm₂.resumes hr₃)
      cases ended with
      | normal => exact again
      | «continue» => exact again
      | «break» => exact .pure hg₂ trivial
      | «return» v => exact .pure hg₂ hended

theorem safe_executeRule (heval : EvalSafe known eval evalW) (hrun : RunSafe known run runW)
    (fuel : Nat) (s : Stmt) (hg : m.Good known o) (hm : Mirrors m o m.current p.frames)
    (hs : s.sites p ⊆ known) :
    SafeWith known (fun o' => Labelled o' (s.Opens m)) (Eval.executeRule eval run fuel s)
      (fun final => Eval.executeRule (evalW final) (runW final) fuel s) m o
      fun c m' o' => c.Fits known p m' o' ∧ Mirrors m' o' m'.current (p.after s).frames := by
  have closed {x : Eval Completion} {xw : Ending → Eval Completion}
      {ok : Completion → Machine → Origins → Prop} (h : Safe known x xw m o ok)
      (hnone : ∀ k outer kind, ¬ s.Opens m k outer kind) :
      SafeWith known (fun o' => Labelled o' (s.Opens m)) x xw m o ok :=
    h.with_origins fun _ _ k outer kind hopens => absurd hopens (hnone k outer kind)
  have inside {E : Origins → Prop} {x : Eval Completion} {xw : Ending → Eval Completion}
      (h : SafeWith known E x xw m o fun c m' o' => c.Fits known p m' o')
      (hnone : s.declared? = none) :
      SafeWith known E x xw m o fun c m' o' =>
        c.Fits known p m' o' ∧ Mirrors m' o' m'.current (p.after s).frames := by
    refine h.mono fun c m' o' _ hr hc => ⟨hc, ?_⟩
    rw [Site.after, hnone]
    exact hm.resumes hr
  rw [Stmt.sites.eq_def, List.cons_subset] at hs
  replace hs := hs.2
  cases s with
  | expression e =>
    exact closed (inside ((heval p e hg hm hs).bind fun _ _ _ hg₁ _ _ => .pure hg₁ trivial) rfl) nofun
  | print e =>
    refine closed (inside ((heval p e hg hm hs).bind fun v m₁ o₁ hg₁ hr₁ hv => ?_) rfl) nofun
    exact (safe_print hg₁ v.text).bind fun _ _ _ hg₂ _ _ => .pure hg₂ trivial
  | var name initializer =>
    rw [List.cons_subset] at hs
    refine closed ((safe_optional (p := p.initializing name.lexeme) heval initializer hg hm hs.2).bind
      fun v m₁ o₁ hg₁ hr₁ hv => ?_) nofun
    refine (safe_defineHere hg₁ (hm.resumes hr₁) (hg.legal _ hs.1) fun _ hr _ =>
      hv.extends hr.toExtends).bind fun _ m₂ o₂ hg₂ _ hm₂ => .pure hg₂ ⟨trivial, hm₂⟩
  | block body =>
    refine inside (SafeWith.get ?_) rfl
    refine SafeWith.bind_ok (safe_openScope hg hm (.block body)) (Eval.openScope_eq _ m)
      fun o₁ _ hg₁ hr₁ hscope => ?_
    have hopened : Instance o₁ m.scopes.size m.current (· = .block body) :=
      hscope.1.instance (hr₁.toExtends.origin hm.origin) rfl
    refine Safe.with_origins ?_ fun o' hp k outer kind hopens => ?_
    · have hbody := safe_runAll hrun body (p.enter (.block body) [])
        (m := { m.opened m.current with current := m.scopes.size }) (hg₁.of_eq rfl rfl rfl rfl)
        (hscope.1.extends (.of_scopes_eq rfl rfl rfl)) hs
      exact hbody.within _ fun c m' o' _ _ hc => Completion.Fits.current (p := p) (by
        cases c <;> exact hc) _
    · cases hopens
      exact hopened.mono hp
  | ifElse condition thenBranch elseBranch =>
    rw [List.append_subset, List.append_subset] at hs
    refine closed (inside ((heval p condition hg hm hs.1.1).bind fun v m₁ o₁ hg₁ hr₁ _ => ?_) rfl)
      nofun
    have hm₁ := hm.resumes hr₁
    split
    · exact (hrun p thenBranch hg₁ hm₁ hs.1.2).mono fun _ _ _ _ _ h => h.1
    · cases elseBranch with
      | none => exact .pure hg₁ trivial
      | some s => exact (hrun p s hg₁ hm₁ hs.2).mono fun _ _ _ _ _ h => h.1
  | whileLoop condition body =>
    rw [List.append_subset] at hs
    refine closed (inside (safe_loop ?_ ?_ ?_ fuel hg hm) rfl) nofun
    · exact fun hg hm => (heval p condition hg hm hs.1).map fun _ _ _ _ _ _ => trivial
    · exact fun hg hm => (hrun p.enterLoop body hg hm hs.2).mono fun _ _ _ _ _ h => h.1
    · exact fun hg _ => .pure hg trivial
  | forLoop initializer condition increment body =>
    simp only [List.append_subset] at hs
    obtain ⟨⟨⟨hinitializer, hcondition⟩, hincrement⟩, hbody⟩ := hs
    let inner := p.enter (.clauses initializer condition increment body) []
    let behind := inner.afterOption initializer
    have hloop {m o} (hg : m.Good known o) (hm : Mirrors m o m.current behind.frames) :
        Safe known
          (Eval.loop (Eval.conditionOf eval condition) (run body)
            (Eval.optional eval increment >>= fun _ => pure ()) fuel)
          (fun final => Eval.loop (Eval.conditionOf (evalW final) condition) (runW final body)
            (Eval.optional (evalW final) increment >>= fun _ => pure ()) fuel) m o
          fun c m' o' => c.Fits known inner m' o' := by
      refine (safe_loop ?_ ?_ ?_ fuel hg hm).mono fun c m' o' _ _ hc =>
        Completion.Fits.behind hc (Site.behind_afterOption initializer)
      · exact fun hg hm => safe_conditionOf heval condition hg hm hcondition
      · exact fun hg hm => (hrun behind.enterLoop body hg hm hbody).mono fun _ _ _ _ _ h => h.1
      · exact fun hg hm => (safe_optional heval increment hg hm hincrement).bind
          fun _ _ _ hg₁ _ _ => .pure hg₁ trivial
    refine inside (SafeWith.get ?_) rfl
    refine SafeWith.bind_ok (safe_openScope hg hm (.clauses initializer condition increment body))
      (Eval.openScope_eq _ m) fun o₁ _ hg₁ hr₁ hscope => ?_
    have hopened : Instance o₁ m.scopes.size m.current
        (· = .clauses initializer condition increment body) :=
      hscope.1.instance (hr₁.toExtends.origin hm.origin) rfl
    refine Safe.with_origins ?_ fun o' hp k outer kind hopens => ?_
    · have hg₂ : ({ m.opened m.current with current := m.scopes.size } : Machine).Good known o₁ :=
        hg₁.of_eq rfl rfl rfl rfl
      have hm₂ : Mirrors { m.opened m.current with current := m.scopes.size } o₁ m.scopes.size
          inner.frames := hscope.1.extends (.of_scopes_eq rfl rfl rfl)
      refine Safe.within ?_ _ fun c m' o' _ _ (hc : c.Fits known inner m' o') =>
        Completion.Fits.current (p := p) (by cases c <;> exact hc) _
      cases initializer with
      | none => exact hloop hg₂ hm₂
      | some s =>
        exact (hrun inner s hg₂ hm₂ hinitializer).bind fun _ m₃ o₃ hg₃ _ hs₃ => hloop hg₃ hs₃.2
    · cases hopens
      exact hopened.mono hp
  | function declaration =>
    rw [List.cons_subset] at hs
    refine closed ?_ nofun
    exact (safe_declareFunction hg hm (hg.legal _ hs.1) hs.2).bind
      fun _ m₁ o₁ hg₁ _ hm₁ => .pure hg₁ ⟨trivial, hm₁⟩
  | «class» declaration =>
    refine (safe_declareClass hg hm hs).bind (fun _ m₁ o₁ _ hlabelled hg₁ _ hm₁ => ?_)
      fun _ _ _ _ _ h => h
    exact Safe.with_origins (.pure hg₁ ⟨trivial, hm₁⟩) fun _ hp => hlabelled.mono hp
  | «return» keyword value =>
    rw [List.cons_subset] at hs
    refine closed (inside ((safe_optional heval value hg hm hs.2).bind
      fun v m₁ o₁ hg₁ _ hv => ?_) rfl) nofun
    exact .pure hg₁ ⟨hv, hg.legal _ hs.1⟩
  | «break» keyword =>
    have hloop : p.loopDepth ≠ 0 := hg.legal _ (hs List.mem_cons_self)
    exact closed (inside (Safe.pure hg hloop) rfl) nofun
  | «continue» keyword =>
    have hloop : p.loopDepth ≠ 0 := hg.legal _ (hs List.mem_cons_self)
    exact closed (inside (Safe.pure hg hloop) rfl) nofun

end Rules

/-! ## Watched runs -/

/-- An activity begins in a good machine, in a scope that mirrors its site. -/
def Begins (known : List (Site × Mark)) (o : Origins) (m : Machine) : Activity → Prop
  | .evaluate _ e => m.Good known o ∧
      ∃ p : Site, Mirrors m o m.current p.frames ∧ e.sites p ⊆ known
  | .execute _ s => m.Good known o ∧
      ∃ p : Site, Mirrors m o m.current p.frames ∧ s.sites p ⊆ known
  | .call _ callee arguments _ => m.Good known o ∧ callee.Good known o m ∧
      ∀ v ∈ arguments, v.Good known o m
  | .program _ s => m.Good known o ∧
      ∃ p : Site, Mirrors m o m.current p.frames ∧ s.sites p ⊆ known ∧ p.function = .none ∧
        p.loopDepth = 0

/-- The watch allows what begins in a good machine, as long as the origins tell of the scopes that
it opens. -/
def Permits (known : List (Site × Mark)) (watch : Ending → Watch) : Prop :=
  ∀ o final a m, o <+: final.labels → Begins known o m a → Labelled final.labels (a.Opens m) →
    (watch final).allowed a m

section Runs

variable {watch : Ending → Watch}

theorem SafeWith.permitted {α : Type} {x : Eval α} {xw : Ending → Eval α} {a : Activity}
    {ok : α → Machine → Origins → Prop} (hw : Permits known watch) (hb : Begins known o m a)
    (h : SafeWith known (fun o' => Labelled o' (a.Opens m)) x xw m o ok) :
    Safe known x (fun final => Eval.watched (watch final) a (xw final)) m o ok :=
  h.watched fun _ final hp hl hfinal => hw o final a m (hp.trans hfinal) hb (hl.mono hfinal)

theorem safe_runs (hw : Permits known watch) (fuel : Nat) :
    EvalSafe known (Eval.evaluate fuel) (fun final => Eval.watchedEvaluate (watch final) fuel) ∧
      RunSafe known (Eval.execute fuel) (fun final => Eval.watchedExecute (watch final) fuel) ∧
      CallSafe known (Eval.call fuel) (fun final => Eval.watchedCall (watch final) fuel) := by
  induction fuel with
  | zero =>
    exact ⟨fun _ _ hg _ _ => safe_outOfFuel hg, fun _ _ hg _ _ => safe_outOfFuel hg,
      fun _ _ _ hg _ _ => safe_outOfFuel hg⟩
  | succ fuel ih =>
    obtain ⟨heval, hrun, hcall⟩ := ih
    refine ⟨fun p e hg hm hs => ?_, fun p s hg hm hs => ?_, fun callee arguments paren hg hc ha => ?_⟩
    · exact (safe_evaluateRule heval hcall e hg hm hs).permitted (a := .evaluate (fuel + 1) e) hw
        ⟨hg, p, hm, hs⟩
    · exact (safe_executeRule heval hrun fuel s hg hm hs).permitted (a := .execute (fuel + 1) s) hw
        ⟨hg, p, hm, hs⟩
    · exact (safe_callRule hrun hg hc ha).permitted (a := .call (fuel + 1) callee arguments paren) hw
        ⟨hg, hc, ha⟩

/-- **Watched evaluations of expressions are safe.** -/
theorem safe_evaluate (hw : Permits known watch) (fuel : Nat) :
    EvalSafe known (Eval.evaluate fuel) (fun final => Eval.watchedEvaluate (watch final) fuel) :=
  (safe_runs hw fuel).1

/-- **Watched executions of statements are safe.** -/
theorem safe_execute (hw : Permits known watch) (fuel : Nat) :
    RunSafe known (Eval.execute fuel) (fun final => Eval.watchedExecute (watch final) fuel) :=
  (safe_runs hw fuel).2.1

end Runs

end Lox
