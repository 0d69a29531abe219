import Lox.Proofs.Machine.Call
import Lox.Proofs.Machine.Opening
import Lox.Proofs.Machine.Safe

/-!
# Variables, methods and calls

* `Machine.Reaches`: a distance leads from the current scope to the instance of a scope of the
  program that binds a name; **`reaches_of_distance?`**: the distance of a site does;
* `safe_read`, `safe_assign`, `safe_superMethod`: reading and writing bindings;
* `safe_bind`, `safe_invoke`, `safe_callRule`: methods and calls;
* `safe_declareFunction`, `safe_declareClass`: declarations.
-/

namespace Lox

variable {known : List (Site × Mark)} {m : Machine} {o : Origins}

theorem Mirrors.resumes {m' : Machine} {o' : Origins} {frames : List Frame}
    (h : Mirrors m o m.current frames) (hr : m.Resumes o m' o') :
    Mirrors m' o' m'.current frames := by
  rw [hr.current]
  exact h.extends hr.toExtends

/-! ## Bindings at a distance -/

/-- So many links out from the current scope lies the instance of the scope that lies so many
scopes out from the site, and it binds the name. -/
def Machine.Reaches (m : Machine) (o : Origins) (p : Site) (name : String) (d : Nat) : Prop :=
  ∃ k, m.scopes.ancestor m.current d = some k ∧ o[k]? = some (p.regions.drop d) ∧
    (m.scopes.own? k name).isSome = true

/-- **In a scope that mirrors a site, the distance of the site leads to a binding of the name.** -/
theorem reaches_of_distance? {p : Site} {name : String} {d : Nat}
    (hm : Mirrors m o m.current p.frames) (hd : p.distance? name = some d) :
    m.Reaches o p name d := by
  rw [Site.distance?, List.findIdx?_eq_some_iff_getElem] at hd
  obtain ⟨hlt, hname, -⟩ := hd
  obtain ⟨k, hk, hmk⟩ := hm.ancestor hlt
  refine ⟨k, hk, ?_, ?_⟩
  · rw [hmk.origin, Site.regions, List.map_drop]
  · rw [List.drop_eq_getElem_cons hlt] at hmk
    exact hmk.holds.names name (List.contains_iff_mem.mp hname)

theorem Scopes.own?_of_holder? {α : Type} (s : Scopes α) (scope : ScopeId) (name : String)
    {holder : ScopeId} (h : s.holder? scope name = some holder) :
    (s.own? holder name).isSome = true := by
  induction scope using Nat.strongRecOn with
  | _ scope ih =>
    rw [Scopes.holder?] at h
    split at h
    · rename_i hown
      cases h
      exact hown
    · split at h
      · cases h
      · rename_i outer hp
        exact ih outer (s.parent_lt scope outer hp) h

theorem Machine.own?_of_holder? {use : Occurrence} {holder : ScopeId}
    (h : m.holder? use = some holder) :
    (m.scopes.own? holder use.name.lexeme).isSome = true := by
  rw [Machine.holder?] at h
  split at h
  · rw [Scopes.holderAt?, Option.filter_eq_some_iff] at h
    exact h.2
  · exact Scopes.own?_of_holder? _ _ _ h

/-! ## Reading and writing -/

theorem safe_locate {use : Occurrence} (hg : m.Good known o) :
    Safe known (Eval.locate use) (fun _ => Eval.locate use) m o fun holder m' o' =>
      m' = m ∧ o' = o ∧ (m.scopes.own? holder use.name.lexeme).isSome = true := by
  refine Safe.get ?_
  cases hh : m.holder? use with
  | some holder => exact .pure hg ⟨rfl, rfl, Machine.own?_of_holder? hh⟩
  | none => exact safe_fail hg _ _

theorem safe_read {use : Occurrence} (hg : m.Good known o) :
    Safe known (Eval.read use) (fun _ => Eval.read use) m o fun v m' o' =>
      m' = m ∧ v.Good known o' m' := by
  refine (safe_locate hg).bind fun holder m₁ o₁ hg₁ _ hm₁ => Safe.get ?_
  cases hv : m₁.scopes.own? holder use.name.lexeme with
  | some v => exact .pure hg₁ ⟨hm₁.1, hg₁.values _ _ _ hv⟩
  | none => exact safe_fail hg₁ _ _

theorem safe_assign {target : Occurrence} {v : Value} (hg : m.Good known o)
    (hname : ∀ w : Keyword, target.name.lexeme ≠ w.spelling) (hv : v.Good known o m) :
    Safe known (Eval.assign target v) (fun _ => Eval.assign target v) m o fun _ _ _ => True := by
  refine (safe_locate hg).bind ?_
  rintro holder m₁ o₁ hg₁ - ⟨rfl, rfl, hown⟩
  have hk : holder < m₁.scopes.size := by
    rcases Nat.lt_or_ge holder m₁.scopes.size with hlt | hge
    · exact hlt
    · rw [Scopes.own?_eq_none _ hge] at hown
      cases hown
  have hfree (w : Keyword) (hw : target.name.lexeme = w.spelling) :
      m₁.scopes.own? holder target.name.lexeme = none := absurd hw (hname w)
  have he : m₁.Extends o₁ (m₁.defined holder target.name.lexeme v) o₁ :=
    Machine.extends_defined hk hfree
  exact .of_ensures o₁ ⟨hg.defined hk hfree (hv.extends he), ⟨he, rfl⟩, trivial⟩

/-! ## Methods -/

theorem safe_bind {method : Closure} {this : Value} (hg : m.Good known o)
    (hmethod : method.GoodMethod known o m) (hthis : this.Good known o m) :
    SafeWith known
      (fun o' => Instance o' m.scopes.size method.scope (Region.IsThisOf method.declaration))
      (Eval.bind method this) (fun _ => Eval.bind method this) m o fun c m' o' =>
        c.Good known o' m' ∧ c = { method with scope := m.scopes.size } := by
  obtain ⟨kind, p, cls, hkind, hm, hmem, hsites⟩ := hmethod
  have h : Safe known (Eval.bind method this) (fun _ => Eval.bind method this) m o fun c m' o' =>
      (c.Good known o' m' ∧ c = { method with scope := m.scopes.size }) ∧
        Mirrors m' o' m.scopes.size (⟨.this cls, [Keyword.this.spelling]⟩ :: p.frames) := by
    refine SafeWith.bind_ok (safe_openScope hg hm (.this cls)) (Eval.openScope_eq _ m)
      fun o₁ _ hg₁ hr₁ hscope => ?_
    obtain ⟨hm₁, -, hnew⟩ := hscope
    have hthis₁ := hthis.extends hr₁.toExtends
    refine (safe_define hg₁ hm₁ (fun _ _ => hnew _) (fun h => absurd h (by decide))
      (fun _ he _ _ => hthis₁.extends he)).bind
      fun _ m₂ o₂ hg₂ _ hm₂ => .pure hg₂ ⟨⟨?_, rfl⟩, hm₂⟩
    exact ⟨kind, p.enter (.this cls) [Keyword.this.spelling], hkind, hm₂, hsites⟩
  refine (h.with_ok (Eval.bind_eq method this m) fun o' hr hok => ?_).mono fun c m' o' _ _ hc => hc.1
  exact hok.2.instance (hr.toExtends.origin hm.origin) ⟨cls, rfl, hmem⟩

theorem safe_bindValue {method : Closure} {this : Value} (hg : m.Good known o)
    (hmethod : method.GoodMethod known o m) (hthis : this.Good known o m) :
    SafeWith known
      (fun o' => Instance o' m.scopes.size method.scope (Region.IsThisOf method.declaration))
      (Eval.bindValue method this) (fun _ => Eval.bindValue method this) m o
      fun v m' o' => v.Good known o' m' := by
  refine (safe_bind hg hmethod hthis).bind_ok (Eval.bind_eq method this m)
    fun o₁ hopened hg₁ hr₁ hc => ?_
  refine Safe.with_origins ?_ fun o' hp => hopened.mono hp
  refine (safe_freshObject hg₁).bind fun id m₂ o₂ hg₂ hr₂ _ => .pure hg₂ ?_
  exact Closure.Good.extends hc.1 hr₂.toExtends

theorem safe_getProperty {object : Value} {name : Token} (hg : m.Good known o)
    (hobject : object.Good known o m) :
    SafeWith known
      (fun o' => ∀ id c f, object = .instance id c →
        (m.fields[id]?).bind (·.get? name.lexeme) = none → c.method? name.lexeme = some f →
        Instance o' m.scopes.size f.scope (Region.IsThisOf f.declaration))
      (Eval.getProperty object name) (fun _ => Eval.getProperty object name) m o
      fun v m' o' => v.Good known o' m' := by
  cases object with
  | «instance» id c =>
    refine SafeWith.get ?_
    cases hf : (m.fields[id]?).bind (·.get? name.lexeme) with
    | some v =>
      obtain ⟨b, hb, hv⟩ := Option.bind_eq_some_iff.mp hf
      refine Safe.with_origins (.pure hg (hg.fields id b _ v hb hv)) fun o' _ id c f he hnone => ?_
      cases he
      rw [hf] at hnone
      cases hnone
    | none =>
      cases hmethod : c.method? name.lexeme with
      | some method =>
        refine (safe_bindValue hg (hobject _ _ hmethod) hobject).imp fun o' hopened => ?_
        rintro _ _ f ⟨rfl, rfl⟩ - hf
        obtain rfl := Option.some.inj (hmethod.symm.trans hf)
        exact hopened
      | none =>
        refine Safe.with_origins (safe_fail hg _ _) fun o' _ => ?_
        rintro _ _ f ⟨rfl, rfl⟩ - hf
        rw [hmethod] at hf
        cases hf
  | _ => exact Safe.with_origins (safe_fail hg _ _) fun _ _ => nofun

theorem safe_superMethod {keyword : Occurrence} {method : Token} {eval : Expr → Eval Value}
    (hg : m.Good known o) :
    SafeWith known (fun o' => Labelled o' (Expr.Opens eval m (.super keyword method)))
      (Eval.superMethod keyword method) (fun _ => Eval.superMethod keyword method) m o
      fun v m' o' => v.Good known o' m' := by
  have hvalue {d : Nat} {name : String} {v : Value}
      (h : m.scopes.getAt m.current d name = some v) : v.Good known o m := by
    obtain ⟨k, hk⟩ := Scopes.exists_own?_of_getAt _ h
    exact hg.values k name v hk
  have hlost {problem : RuntimeProblem} {place : Token}
      (hnone : ∀ k outer kind, ¬ Expr.Opens eval m (.super keyword method) k outer kind) :
      SafeWith known (fun o' => Labelled o' (Expr.Opens eval m (.super keyword method)))
        (Eval.fail problem place : Eval Value) (fun _ => Eval.fail problem place) m o
        fun v m' o' => v.Good known o' m' :=
    Safe.with_origins (safe_fail hg _ _) fun _ _ k outer kind h => absurd h (hnone k outer kind)
  refine SafeWith.get ?_
  split
  · rename_i hd
    refine hlost fun _ _ _ h => ?_
    cases h with
    | super h₁ _ _ _ => cases hd.symm.trans h₁
  · rename_i distance hd
    split
    · rename_i superclass hsuper
      split
      · refine hlost fun _ _ _ h => ?_
        cases h with
        | super h₁ _ _ _ => cases hd.symm.trans h₁
      · split
        · rename_i hthis
          refine hlost fun _ _ _ h => ?_
          cases h with
          | super h₁ _ h₃ _ =>
            cases hd.symm.trans h₁
            cases hthis.symm.trans h₃
        · rename_i this hthis
          have hsame {k outer kind} (h : Expr.Opens eval m (.super keyword method) k outer kind) :
              ∃ f, superclass.method? method.lexeme = some f ∧ k = m.scopes.size ∧
                outer = f.scope ∧ kind = Region.IsThisOf f.declaration := by
            cases h with
            | @super _ _ _ _ _ f h₁ h₂ _ h₄ =>
              cases hd.symm.trans h₁
              cases hsuper.symm.trans h₂
              exact ⟨f, h₄, rfl, rfl, rfl⟩
          split
          · rename_i found hfound
            refine (safe_bindValue hg (hvalue hsuper _ _ hfound) (hvalue hthis)).imp
              fun o' hopened k outer kind h => ?_
            obtain ⟨f, hf, rfl, rfl, rfl⟩ := hsame h
            cases hfound.symm.trans hf
            exact hopened
          · rename_i hnone
            refine hlost fun _ _ _ h => ?_
            obtain ⟨f, hf, -⟩ := hsame h
            cases hnone.symm.trans hf
    · rename_i hother
      refine hlost fun _ _ _ h => ?_
      cases h with
      | super h₁ h₂ _ _ =>
        cases hd.symm.trans h₁
        exact hother _ h₂

/-! ## Rows of statements -/

/-- How a statement at a site may end: with `break` and `continue` only in a loop, and with
`return` only in a function. -/
def Completion.Fits (known : List (Site × Mark)) (p : Site) (m : Machine) (o : Origins) :
    Completion → Prop
  | .normal => True
  | .return v => v.Good known o m ∧ p.function ≠ .none
  | .break => p.loopDepth ≠ 0
  | .continue => p.loopDepth ≠ 0

theorem Completion.Fits.behind {p q : Site} {c : Completion} (h : c.Fits known q m o)
    (hb : p.Behind q) : c.Fits known p m o := by
  cases c with
  | normal => trivial
  | «return» v => exact ⟨h.1, hb.function ▸ h.2⟩
  | «break» => exact fun hp => h (hb.loopDepth.trans hp)
  | «continue» => exact fun hp => h (hb.loopDepth.trans hp)

/-- Evaluating expressions is safe. -/
def EvalSafe (known : List (Site × Mark)) (eval : Expr → Eval Value)
    (watched : Ending → Expr → Eval Value) : Prop :=
  ∀ {m o} (p : Site) (e : Expr), m.Good known o → Mirrors m o m.current p.frames →
    e.sites p ⊆ known →
    Safe known (eval e) (fun final => watched final e) m o fun v m' o' => v.Good known o' m'

/-- Running statements is safe, and they end as they may. -/
def RunSafe (known : List (Site × Mark)) (run : Stmt → Eval Completion)
    (watched : Ending → Stmt → Eval Completion) : Prop :=
  ∀ {m o} (p : Site) (s : Stmt), m.Good known o → Mirrors m o m.current p.frames →
    s.sites p ⊆ known →
    Safe known (run s) (fun final => watched final s) m o fun c m' o' =>
      c.Fits known p m' o' ∧ Mirrors m' o' m'.current (p.after s).frames

/-- Calling values is safe. -/
def CallSafe (known : List (Site × Mark)) (call : Value → List Value → Token → Eval Value)
    (watched : Ending → Value → List Value → Token → Eval Value) : Prop :=
  ∀ {m o} (callee : Value) (arguments : List Value) (paren : Token), m.Good known o →
    callee.Good known o m → (∀ v ∈ arguments, v.Good known o m) →
    Safe known (call callee arguments paren) (fun final => watched final callee arguments paren) m o
      fun v m' o' => v.Good known o' m'

/-- A body of a function ends so that no loop around the call hears of it. -/
def Completion.LeavesFunction : Completion → Prop
  | .normal | .return _ => True
  | .break | .continue => False

section Rules

variable {eval : Expr → Eval Value} {evalW : Ending → Expr → Eval Value}
  {run : Stmt → Eval Completion} {runW : Ending → Stmt → Eval Completion}
  {call : Value → List Value → Token → Eval Value}
  {callW : Ending → Value → List Value → Token → Eval Value}

theorem safe_runAll (hrun : RunSafe known run runW) (ss : List Stmt) (p : Site)
    (hg : m.Good known o) (hm : Mirrors m o m.current p.frames) (hs : Stmt.sitesAll p ss ⊆ known) :
    Safe known (Eval.runAll run ss) (fun final => Eval.runAll (runW final) ss) m o
      fun c m' o' => c.Fits known p m' o' := by
  induction ss generalizing m o p with
  | nil => exact .pure hg trivial
  | cons s rest ih =>
    rw [Stmt.sitesAll, List.append_subset] at hs
    refine (hrun p s hg hm hs.1).bind fun c m₁ o₁ hg₁ _ hc => ?_
    cases c with
    | normal => exact (ih (p.after s) hg₁ hc.2 hs.2).mono fun c m₂ o₂ _ _ hc₂ =>
        hc₂.behind (Site.behind_after s)
    | «return» v => exact .pure hg₁ hc.1
    | «break» => exact .pure hg₁ hc.1
    | «continue» => exact .pure hg₁ hc.1

/-! ## Calls -/

theorem safe_defineAll {k : ScopeId} {region : Region} {frames : List Frame} {params : List Token}
    {arguments : List Value} (hlen : arguments.length = params.length)
    (hparams : ∀ t ∈ params, ∀ w : Keyword, t.lexeme ≠ w.spelling)
    (hargs : ∀ v ∈ arguments, v.Good known o m) {names : List String} (hg : m.Good known o)
    (hm : Mirrors m o k (⟨region, names⟩ :: frames)) :
    Safe known (Eval.defineAll k params arguments) (fun _ => Eval.defineAll k params arguments) m o
      fun _ m' o' => Mirrors m' o' k (⟨region, names ++ params.map Token.lexeme⟩ :: frames) := by
  induction params generalizing m o arguments names with
  | nil =>
    obtain rfl : arguments = [] := List.length_eq_zero_iff.mp hlen
    exact .pure hg (by simpa using hm)
  | cons t params ih =>
    cases arguments with
    | nil => cases hlen
    | cons v arguments =>
      have ht := hparams t List.mem_cons_self
      refine (safe_define hg hm (fun w hw => absurd hw (ht w)) (fun hw => absurd hw (ht .super))
        (fun _ he _ _ => (hargs v List.mem_cons_self).extends he)).bind fun _ m₁ o₁ hg₁ hr₁ hm₁ => ?_
      have hargs₁ : ∀ u ∈ arguments, u.Good known o₁ m₁ := fun u hu =>
        (hargs u (List.mem_cons_of_mem v hu)).extends hr₁.toExtends
      have hrest := ih (Nat.succ.inj hlen) (fun u hu => hparams u (List.mem_cons_of_mem t hu)) hargs₁
        hg₁ hm₁
      refine hrest.mono fun _ m₂ o₂ _ _ hm₂ => hm₂.rename fun n hn => ?_
      simpa [or_left_comm] using hn

/-- The body of a function runs in a scope of its own, on arguments for all its parameters, and no
`break` or `continue` leaves it. -/
theorem safe_runBody (hrun : RunSafe known run runW) {c : Closure} {arguments : List Value}
    (hg : m.Good known o) (hc : c.Good known o m) (hlen : arguments.length = c.arity)
    (hargs : ∀ v ∈ arguments, v.Good known o m) :
    SafeWith known
      (fun o' => Instance o' m.scopes.size c.scope (· = .function c.declaration))
      (Eval.runBody run c arguments) (fun final => Eval.runBody (runW final) c arguments) m o
      fun ended m' o' => ended.LeavesFunction ∧ ∀ v, ended = .return v → v.Good known o' m' := by
  obtain ⟨⟨name, params, body, span⟩, scope, isInitializer⟩ := c
  obtain ⟨kind, p, -, hm, hsites⟩ := hc
  rw [Function.sites, List.append_subset] at hsites
  obtain ⟨hnames, hbody⟩ := hsites
  refine SafeWith.bind_ok (safe_openScope hg hm (.function ⟨name, params, body, span⟩))
    (Eval.openScope_eq scope m) fun o₁ _ hg₁ hr₁ hk => ?_
  have hopened : Instance o₁ m.scopes.size scope (· = .function ⟨name, params, body, span⟩) :=
    hk.1.instance (hr₁.toExtends.origin hm.origin) rfl
  refine Safe.with_origins ?_ fun o' hp => hopened.mono hp
  have hparams : ∀ t ∈ params, ∀ w : Keyword, t.lexeme ≠ w.spelling := fun t ht =>
    hg.legal _ (hnames (List.mem_map_of_mem (List.mem_map_of_mem ht)))
  have hargs₁ : ∀ v ∈ arguments, v.Good known o₁ (m.opened scope) := fun v hv =>
    (hargs v hv).extends hr₁.toExtends
  refine (safe_defineAll hlen hparams hargs₁ hg₁ hk.1).bind fun _ m₂ o₂ hg₂ _ hm₂ => ?_
  have hrun₂ := safe_runAll hrun body (p.enterFunction kind ⟨name, params, body, span⟩)
    (m := { m₂ with current := m.scopes.size }) (hg₂.of_eq rfl rfl rfl rfl)
    (hm₂.extends (.of_scopes_eq rfl rfl rfl)) hbody
  refine hrun₂.within _ ?_
  rintro ended m' o' - - hended
  refine ⟨?_, fun v hv => ?_⟩
  · cases ended with
    | normal => trivial
    | «return» v => trivial
    | «break» => exact hended rfl
    | «continue» => exact hended rfl
  · subst hv
    exact hended.1.extends (.of_scopes_eq rfl rfl rfl)

theorem safe_invoke (hrun : RunSafe known run runW) {c : Closure} {arguments : List Value}
    (hg : m.Good known o) (hc : c.Good known o m) (hlen : arguments.length = c.arity)
    (hargs : ∀ v ∈ arguments, v.Good known o m) :
    SafeWith known
      (fun o' => Instance o' m.scopes.size c.scope (· = .function c.declaration))
      (Eval.invoke run c arguments) (fun final => Eval.invoke (runW final) c arguments) m o
      fun v m' o' => v.Good known o' m' := by
  simp only [Eval.invoke_eq]
  refine (safe_runBody hrun hg hc hlen hargs).bind (fun ended m₁ o₁ _ hopened hg₁ _ hended => ?_)
    fun _ _ _ _ _ h => h
  refine Safe.with_origins ?_ fun o' hp => hopened.mono hp
  unfold Eval.resultOf
  split
  · refine Safe.get (.pure hg₁ ?_)
    cases hthis : m₁.scopes.getAt c.scope 0 Keyword.this.spelling with
    | none => trivial
    | some v =>
      obtain ⟨k', hk'⟩ := Scopes.exists_own?_of_getAt _ hthis
      exact hg₁.values k' _ v hk'
  · cases ended with
    | «return» v => exact .pure hg₁ (hended.2 v rfl)
    | _ => exact .pure hg₁ trivial

theorem safe_callRule (hrun : RunSafe known run runW) {callee : Value} {arguments : List Value}
    {paren : Token} (hg : m.Good known o) (hcallee : callee.Good known o m)
    (hargs : ∀ v ∈ arguments, v.Good known o m) :
    SafeWith known (fun o' => Labelled o' (callee.Opens m arguments))
      (Eval.callRule run callee arguments paren)
      (fun final => Eval.callRule (runW final) callee arguments paren) m o
      fun v m' o' => v.Good known o' m' := by
  have closed {x : Eval Value} {xw : Ending → Eval Value}
      (hnone : ∀ k outer kind, ¬ callee.Opens m arguments k outer kind)
      (h : Safe known x xw m o fun v m' o' => v.Good known o' m') :
      SafeWith known (fun o' => Labelled o' (callee.Opens m arguments)) x xw m o
        fun v m' o' => v.Good known o' m' :=
    h.with_origins fun _ _ k outer kind hopens => absurd hopens (hnone k outer kind)
  cases callee with
  | function id c =>
    by_cases hlen : arguments.length = c.arity
    · simp only [Eval.callRule_function hlen]
      refine (safe_invoke hrun hg hcallee hlen hargs).imp fun o' hopened _ _ _ hopens => ?_
      cases hopens
      exact hopened
    · simp only [Eval.callRule, Eval.checkArity_of_ne hlen]
      exact closed (fun _ _ _ h => by cases h; contradiction) (safe_fail hg _ _)
  | native f =>
    refine closed (fun _ _ _ h => by cases h) ?_
    simp only [Eval.callRule, Eval.checkArity]
    split
    · cases f
      exact safe_readClock hg
    · exact safe_fail hg _ _
  | «class» c =>
    by_cases hlen : arguments.length = c.arity
    · cases hi : c.initializer? with
      | none =>
        simp only [Eval.callRule_class_none hlen hi]
        refine closed (fun _ _ _ h => by cases h <;> simp_all) ?_
        exact safe_freshInstance hg hcallee
      | some initializer =>
        have harity : arguments.length = initializer.arity := by
          rw [hlen, ClassObject.arity, hi]
          rfl
        simp only [Eval.callRule_class hlen hi]
        refine SafeWith.bind_ok (safe_freshInstance hg hcallee) (Eval.freshInstance_eq c m)
          fun o₁ _ hg₁ hr₁ hthis => ?_
        have hc₁ := ClassObject.Good.extends hcallee hr₁.toExtends
        refine (safe_bind hg₁ (hc₁ _ _ hi) hthis).bind_ok (Eval.bind_eq _ _ _)
          fun o₂ hbound hg₂ hr₂ hgood => ?_
        have hargs₂ : ∀ v ∈ arguments, v.Good known o₂ (m.instantiated.bound initializer _) :=
          fun v hv => (hargs v hv).extends (hr₁.trans hr₂).toExtends
        have hopened {o₃ : Origins} (hp : o₂ <+: o₃)
            (hbody : Instance o₃ (m.scopes.size + 1) m.scopes.size
              (· = .function initializer.declaration)) :
            Labelled o₃ (Value.Opens m (.class c) arguments) := by
          intro k outer kind hopens
          cases hopens with
          | this _ hi' =>
            obtain rfl := Option.some.inj (hi.symm.trans hi')
            exact hbound.mono hp
          | initializer _ hi' =>
            obtain rfl := Option.some.inj (hi.symm.trans hi')
            exact hbody
        have hsize : (m.instantiated.bound initializer _).scopes.size = m.scopes.size + 1 :=
          m.instantiated.size_bound initializer (.instance m.fields.size c)
        refine (safe_invoke hrun hg₂ hgood.1 harity hargs₂).bind
          (fun _ m₃ o₃ _ hbody hg₃ hr₃ _ => ?_) fun e m₃ o₃ _ hp hbody => hopened hp (hsize ▸ hbody)
        refine Safe.with_origins (.pure hg₃ (hthis.extends (hr₂.trans hr₃).toExtends)) ?_
        exact fun o' hp => (hopened hr₃.origins (hsize ▸ hbody)).mono hp
    · simp only [Eval.callRule, Eval.checkArity_of_ne hlen]
      exact closed (fun _ _ _ h => by cases h <;> contradiction) (safe_fail hg _ _)
  | _ => exact closed (fun _ _ _ h => by cases h) (safe_fail hg _ _)

end Rules

/-! ## Declarations -/

theorem safe_defineHere {p : Site} {name : Token} {v : Value} (hg : m.Good known o)
    (hm : Mirrors m o m.current p.frames) (hname : ∀ w : Keyword, name.lexeme ≠ w.spelling)
    (hv : ∀ m', m.Resumes o m' o → Mirrors m' o m'.current (p.declare name.lexeme).frames →
      v.Good known o m') :
    Safe known (Eval.defineHere name.lexeme v) (fun _ => Eval.defineHere name.lexeme v) m o
      fun _ m' o' => Mirrors m' o' m'.current (p.declare name.lexeme).frames := by
  refine Safe.get ?_
  obtain ⟨f, frames, hp⟩ := hm.exists_cons
  rw [Site.declare_eq hp] at hv ⊢
  rw [hp] at hm
  refine (safe_define hg hm (fun w hw => absurd hw (hname w)) (fun hw => absurd hw (hname .super))
    fun m' he hc hm' => hv m' ⟨he, hc⟩ (hc ▸ hm')).mono fun _ m' o' _ hr hm' => ?_
  rw [hr.current]
  exact hm'

theorem safe_declareFunction {p : Site} {f : Function} (hg : m.Good known o)
    (hm : Mirrors m o m.current p.frames) (hname : ∀ w : Keyword, f.name.lexeme ≠ w.spelling)
    (hs : f.sites .function (p.declare f.name.lexeme) ⊆ known) :
    Safe known (Eval.declareFunction f) (fun _ => Eval.declareFunction f) m o
      fun _ m' o' => Mirrors m' o' m'.current (p.declare f.name.lexeme).frames := by
  refine Safe.get ((safe_freshObject hg).bind fun id m₁ o₁ hg₁ hr₁ _ => ?_)
  refine safe_defineHere hg₁ (hm.resumes hr₁) hname fun m' hr hm' => ?_
  rw [(hr₁.current.symm.trans hr.current.symm : m.current = m'.current)]
  exact ⟨.function, p.declare f.name.lexeme, by decide, hm', hs⟩

theorem safe_superclassValue {superclass : Option Occurrence} (hg : m.Good known o) :
    Safe known (Eval.superclassValue superclass) (fun _ => Eval.superclassValue superclass) m o
      fun parent m' o' => m' = m ∧ parent.isSome = superclass.isSome ∧
        ∀ c ∈ parent, ClassObject.Good known o' m' c := by
  cases superclass with
  | none => exact .pure hg ⟨rfl, rfl, by simp⟩
  | some use =>
    refine (safe_read hg).bind fun v m₁ o₁ hg₁ _ hv => ?_
    cases v with
    | «class» c => exact .pure hg₁ ⟨hv.1, rfl, fun c' hc => by cases hc; exact hv.2⟩
    | _ => exact safe_fail hg₁ _ _

/-- The methods of a class are declared in a scope that mirrors the class from the inside, once
its name is bound. -/
theorem safe_methodScope {p : Site} {parent : Option ClassObject} {c : Class}
    (hg : m.Good known o) (hm : Mirrors m o m.current p.frames)
    (hparent : ∀ c ∈ parent, ClassObject.Good known o m c)
    (hsome : parent.isSome = c.superclass.isSome) :
    SafeWith known
      (fun o' => c.superclass.isSome = true →
        Instance o' m.scopes.size m.current (· = .super c))
      (Eval.methodScope parent) (fun _ => Eval.methodScope parent) m o
      fun scope m' o' => ∀ m'' o'', m'.Resumes o' m'' o'' →
        Mirrors m'' o'' m''.current (p.declare c.name.lexeme).frames →
        Mirrors m'' o'' scope ((p.declare c.name.lexeme).enterSuper c).frames := by
  refine SafeWith.get ?_
  cases hc : c.superclass with
  | none =>
    rw [hc] at hsome
    cases parent with
    | some parent => cases hsome
    | none =>
      refine Safe.with_origins (.pure hg fun m'' o'' hr hm'' => ?_) fun _ _ h => nomatch h
      rw [Site.enterSuper, hc]
      exact hr.current ▸ hm''
  | some use =>
    rw [hc] at hsome
    cases parent with
    | none => cases hsome
    | some parent =>
      refine SafeWith.bind_ok (safe_openScope hg hm (.super c)) (Eval.openScope_eq _ m)
        fun o₁ _ hg₁ hr₁ hscope => ?_
      obtain ⟨hm₁, hp, hnew⟩ := hscope
      have hopened : Instance o₁ m.scopes.size m.current (· = .super c) :=
        hm₁.instance (hr₁.toExtends.origin hm.origin) rfl
      refine Safe.with_origins ?_ fun o' hp _ => hopened.mono hp
      refine (safe_define hg₁ hm₁ (fun _ _ => hnew _) (fun _ => ⟨parent, rfl⟩) fun _ he _ _ =>
        (hparent parent rfl).extends (hr₁.toExtends.trans he)).bind fun _ m₂ o₂ hg₂ hr₂ hm₂ => ?_
      refine .pure hg₂ fun m'' o'' hr hm'' => ?_
      have hall := hr₂.trans hr
      rw [(hall.current.trans hr₁.current : m''.current = m.current)] at hm''
      have hlast := hm₂.extends hr.toExtends
      rw [Site.enterSuper, hc]
      refine .inner ?_ hm'' ?_ hlast.holds
      · rw [hall.parent _ (hm₁.lt_size hg₁), hp]
      · rw [hlast.origin]
        exact congrArg (some <| Region.super c :: ·) (Site.regions_declare p c.name.lexeme).symm

theorem Function.mem_sitesMethods {p : Site} {f : Function} {methods : List Function}
    (hf : f ∈ methods) : f.sites f.methodKind p ⊆ Function.sitesMethods p methods := by
  induction methods with
  | nil => cases hf
  | cons g rest ih =>
    rw [Function.sitesMethods]
    rcases List.mem_cons.mp hf with rfl | hf
    · exact List.subset_append_left _ _
    · exact List.subset_append_of_subset_right _ (ih hf)

/-- What stands in a table of methods under a name is a method of that name. -/
theorem closure_of_methodTable {scope : ScopeId} {methods : List Function} {name : String}
    {c : Closure} (h : (Eval.methodTable scope methods).get? name = some c) :
    ∃ f ∈ methods, f.name.lexeme = name ∧ c = ⟨f, scope, f.isInitializer⟩ := by
  have hfold (table : Bindings Closure) :
      (methods.foldl (fun table f => table.insert f.name.lexeme ⟨f, scope, f.isInitializer⟩)
        table).get? name = some c →
      table.get? name = some c ∨
        ∃ f ∈ methods, f.name.lexeme = name ∧ c = ⟨f, scope, f.isInitializer⟩ := by
    clear h
    induction methods generalizing table with
    | nil => exact .inl
    | cons f rest ih =>
      intro h
      rcases ih _ h with h | ⟨g, hg, hc⟩
      · rw [Bindings.get?_insert] at h
        split at h
        · rename_i hname
          exact .inr ⟨f, List.mem_cons_self, hname, (Option.some.inj h).symm⟩
        · exact .inl h
      · exact .inr ⟨g, List.mem_cons_of_mem f hg, hc⟩
  rcases hfold .empty h with h | h
  · cases h
  · exact h

theorem exists_of_methodTable {scope : ScopeId} {methods : List Function} {name : String}
    {c : Closure} (h : (Eval.methodTable scope methods).get? name = some c) :
    ∃ f ∈ methods, c.declaration = f ∧ c.scope = scope := by
  obtain ⟨f, hf, -, rfl⟩ := closure_of_methodTable h
  exact ⟨f, hf, rfl, rfl⟩

theorem safe_declareClass {p : Site} {c : Class} (hg : m.Good known o)
    (hm : Mirrors m o m.current p.frames) (hs : c.sites p ⊆ known) :
    SafeWith known (fun o' => Labelled o' (Stmt.Opens m (.class c)))
      (Eval.declareClass c) (fun _ => Eval.declareClass c) m o
      fun _ m' o' => Mirrors m' o' m'.current (p.declare c.name.lexeme).frames := by
  obtain ⟨name, superclass, methods, span⟩ := c
  rw [Class.sites, List.cons_subset, List.append_subset] at hs
  obtain ⟨hname, -, hmethods⟩ := hs
  refine SafeWith.bind (safe_superclassValue hg) (fun parent m₁ o₁ _ _ hg₁ hr₁ hparent => ?_)
    fun e m₁ o₁ he _ _ k outer kind hopens => ?_
  rotate_left
  · cases hopens with
    | @super _ use _ huse hread =>
      obtain rfl : superclass = some use := huse
      rw [Eval.superclassValue, bind_of_ok hread] at he
      cases he
  obtain ⟨rfl, hsome, hparent⟩ := hparent
  have labelled {o' : Origins} (h : superclass.isSome = true → Instance o' m₁.scopes.size m₁.current
      (· = .super ⟨name, superclass, methods, span⟩)) :
      Labelled o' (Stmt.Opens m₁ (.class ⟨name, superclass, methods, span⟩)) := by
    intro k outer kind hopens
    cases hopens with
    | super huse _ => exact h (Option.isSome_of_eq_some huse)
  refine (safe_methodScope (c := ⟨name, superclass, methods, span⟩) hg₁ (hm.resumes hr₁) hparent
    hsome).bind (fun scope m₂ o₂ _ hopened hg₂ hr₂ hscope => ?_) fun _ _ _ _ _ => labelled
  refine Safe.with_origins ?_ fun o' hp => (labelled hopened).mono hp
  refine (safe_freshObject hg₂).bind fun id m₃ o₃ hg₃ hr₃ _ => ?_
  refine safe_defineHere hg₃ (hm.resumes (hr₁.trans (hr₂.trans hr₃))) (hg.legal _ hname)
    fun m' hr hm' => ?_
  intro n f hf
  unfold ClassObject.method? at hf
  cases htable : (Eval.methodTable scope methods).get? n with
  | some found =>
    rw [htable] at hf
    cases hf
    obtain ⟨g, hmem, rfl, rfl⟩ := exists_of_methodTable htable
    have hkind : f.declaration.methodKind ≠ .none := by
      rw [Function.methodKind]
      split <;> decide
    exact ⟨_, _, _, hkind, hscope m' _ (hr₃.trans hr) hm', hmem,
      fun x hx => hmethods (Function.mem_sitesMethods hmem hx)⟩
  | none =>
    rw [htable] at hf
    cases parent with
    | none => cases hf
    | some parent =>
      exact (hparent parent rfl n f hf).extends (hr₂.trans (hr₃.trans hr)).toExtends

end Lox
