import Lox.Proofs.Machine.TiedRun
import Lox.Proofs.Session.Legal

/-!
# Construction yields the instance

An initializer yields what `this` is in the scope that binds it, read back behind its body. The body
may do anything, but nothing that a program does changes what `this` is in a scope, so that a call
yields the very instance that the initializer was bound to, however long ago.

* `Machine.Lacks`: the number of an instance is new, `Completion.value`: what a body returns;
* `Closure.BoundTo`: a function is a method that was bound to an instance;
* `Constructs`: what classes, bound methods and functions yield, `construction`: the watch for that;
* `Eval.superMethod_ok`, `Eval.length_of_checkArity`, …: calls that succeed, taken apart;
* `constructs_class`, `bound_of_get`, `bound_of_super`, `result_of_initializer`, `result_of_body`: what
  each of them yields, `foresees_construction`: all that begins in a tied machine yields what it must;
* `Session.Tied`: everything that can be reached between two calls is tied;
* **`Session.construction_yields_instance`**: classes and initializers yield their instances.
-/

namespace Lox

/-- No value in reach is the instance of this number. -/
structure Machine.Lacks (m : Machine) (id : InstanceId) : Prop where
  values : ∀ k name c, m.scopes.own? k name ≠ some (.instance id c)
  fields : ∀ (i : InstanceId) (b : Bindings Value) name c,
    m.fields[i]? = some b → b.get? name ≠ some (.instance id c)

/-- What a call yields whose body ended so, unless it is that of an initializer. -/
def Completion.value : Completion → Value
  | .return v => v
  | _ => .nil

/-- The function is a method of a class that the program declares, it is an initializer if that is its
name, and `this` in its scope is the instance that it was bound to. -/
structure Closure.BoundTo (sites : List (Site × Mark)) (holders : ScopeId → Option Value)
    (c : Closure) (this : Value) : Prop where
  method : c.declaration.IsMethod sites
  flag : c.isInitializer = c.declaration.isInitializer
  holder : holders c.scope = some this

/-- Classes and initializers yield their instances; `holders` tells what `this` is in every scope that
is ever opened for it. -/
structure Constructs (sites : List (Site × Mark)) (holders : ScopeId → Option Value) (m : Machine)
    (a : Activity) : Prop where
  /-- A class with an initializer, its own or an inherited one, binds it to a new instance of exactly
  this class, if there are as many arguments as it needs, and yields that instance. -/
  made : ∀ fuel k f arguments paren, a = .call (fuel + 1) (.class k) arguments paren →
    k.initializer? = some f →
      m.Lacks m.fields.size ∧
      (arguments.length = k.arity →
        ({ f with scope := m.scopes.size } : Closure).BoundTo sites holders
          (.instance m.fields.size k)) ∧
      ∀ v m', Eval.call (fuel + 1) (.class k) arguments paren m = .ok v m' →
        v = .instance m.fields.size k
  /-- A method that is looked up in an instance is bound to it. -/
  looked : ∀ fuel object name, a = .evaluate (fuel + 1) (.get object name) →
    ∀ id k f m₁, Eval.evaluate fuel object m = .ok (.instance id k) m₁ →
      (m₁.fields[id]?).bind (·.get? name.lexeme) = none → k.method? name.lexeme = some f →
      ∃ number c m', Eval.evaluate (fuel + 1) (.get object name) m = .ok (.function number c) m' ∧
        c.declaration.name.lexeme = name.lexeme ∧ c.BoundTo sites holders (.instance id k)
  /-- A method that `super` leads to is bound to what `this` is. -/
  inherited : ∀ fuel keyword method, a = .evaluate (fuel + 1) (.super keyword method) →
    ∀ v m', Eval.evaluate (fuel + 1) (.super keyword method) m = .ok v m' →
      ∃ number c d this, v = .function number c ∧
        m.distances[keyword.id]? = some (d + 1) ∧
        m.scopes.getAt m.current d Keyword.this.spelling = some this ∧
        c.declaration.name.lexeme = method.lexeme ∧ c.BoundTo sites holders this
  /-- Only a method named as initializers are, bound to an instance, is an initializer, and it yields
  that instance. -/
  initializer : ∀ fuel number c arguments paren,
    a = .call (fuel + 1) (.function number c) arguments paren → c.isInitializer = true →
      c.declaration.name.lexeme = initializerName ∧
      ∃ id k, c.BoundTo sites holders (.instance id k) ∧
        ∀ v m', Eval.call (fuel + 1) (.function number c) arguments paren m = .ok v m' →
          v = .instance id k
  /-- Every other function yields what its body returns. -/
  other : ∀ fuel number c arguments paren,
    a = .call (fuel + 1) (.function number c) arguments paren → c.isInitializer = false →
      ∀ v m', Eval.call (fuel + 1) (.function number c) arguments paren m = .ok v m' →
        ∃ ended, Eval.runBody (Eval.execute fuel) c arguments m = .ok ended m' ∧ v = ended.value

/-- Every activity must yield what it must. -/
def construction (sites : List (Site × Mark)) (holders : ScopeId → Option Value)
    (signal : Interrupt) : Watch where
  allowed a m := Constructs sites holders m a
  signal := signal

/-! ## Calls taken apart -/

namespace Eval

variable {m m' : Machine} {v : Value} {arguments : List Value} {paren : Token} {fuel : Nat}
  {run : Stmt → Eval Completion}

theorem exists_of_bind_ok {α β : Type} {x : Eval α} {f : α → Eval β} {b : β}
    (h : (x >>= f) m = .ok b m') : ∃ a m₁, x m = .ok a m₁ ∧ f a m₁ = .ok b m' := by
  cases hx : x m with
  | ok a m₁ => exact ⟨a, m₁, rfl, (bind_of_ok hx).symm.trans h⟩
  | error e m₁ => cases (bind_of_error hx).symm.trans h

theorem superMethod_ok {keyword : Occurrence} {method : Token}
    (h : superMethod keyword method m = .ok v m') :
    ∃ d k superclass this f, m.distances[keyword.id]? = some (d + 1) ∧
      m.scopes.own? k Keyword.super.spelling = some (.class superclass) ∧
      m.scopes.getAt m.current d Keyword.this.spelling = some this ∧
      superclass.method? method.lexeme = some f ∧ bindValue f this m = .ok v m' := by
  rw [superMethod, get_bind] at h
  cases hd : m.distances[keyword.id]? with
  | none =>
    simp only [hd] at h
    cases h
  | some distance =>
    cases hsuper : m.scopes.getAt m.current distance Keyword.super.spelling with
    | none =>
      simp only [hd, hsuper] at h
      cases h
    | some superclass =>
      cases superclass with
      | «class» superclass =>
        obtain ⟨k, hk⟩ := Scopes.exists_own?_of_getAt _ hsuper
        cases distance with
        | zero =>
          simp only [hd, hsuper] at h
          cases h
        | succ d =>
          cases hthis : m.scopes.getAt m.current d Keyword.this.spelling with
          | none =>
            simp only [hd, hsuper, hthis] at h
            cases h
          | some this =>
            cases hf : superclass.method? method.lexeme with
            | none =>
              simp only [hd, hsuper, hthis, hf] at h
              cases h
            | some f =>
              simp only [hd, hsuper, hthis, hf] at h
              exact ⟨d, k, superclass, this, f, rfl, hk, hthis, hf, h⟩
      | _ =>
        simp only [hd, hsuper] at h
        cases h

theorem length_of_checkArity {needed : Nat} {rest : Unit → Eval Value}
    (h : (checkArity needed arguments paren >>= rest) m = .ok v m') :
    arguments.length = needed := by
  by_cases hlen : arguments.length = needed
  · exact hlen
  · rw [checkArity_of_ne hlen] at h
    cases h

theorem bindValue_eq (method : Closure) (this : Value) (m : Machine) :
    bindValue method this m =
      .ok (.function m.nextObject { method with scope := m.scopes.size })
        (m.bound method this).numbered := rfl

end Eval

/-! ## What is foreseen -/

section Foresight

variable {sites : List (Site × Mark)} {m m' final : Machine} {name : String} {fuel : Nat}
  {arguments : List Value} {paren : Token}

theorem Machine.Tied.lacks (hm : m.Tied sites) : m.Lacks m.fields.size where
  values := fun k name _ h => Nat.lt_irrefl _ (hm.values k name _ h).1
  fields := fun i b name _ hb h => Nat.lt_irrefl _ (hm.fields i b name _ hb h).1

theorem Closure.TiedMethod.boundTo {f : Closure} (h : f.TiedMethod sites name) {this : Value}
    (hfinal : (m.bound f this).KeepsThis final) :
    ({ f with scope := m.scopes.size } : Closure).BoundTo sites final.this? this :=
  ⟨h.method, h.flag, hfinal.this_of_some (Machine.this?_bound f this)⟩

variable (hn : Unreserved sites)

include hn

/-- A class binds its initializer to a new instance, and yields that instance. -/
theorem constructs_class (hm : m.Tied sites) {k : ClassObject} (hk : k.Tied sites)
    (hargs : ∀ v ∈ arguments, v.Tied sites m) {f : Closure} (hf : k.initializer? = some f)
    (hlen : arguments.length = k.arity)
    (hfinal : ((Eval.call (fuel + 1) (.class k) arguments paren).leaves m).KeepsThis final) :
    ({ f with scope := m.scopes.size } : Closure).BoundTo sites final.this?
        (.instance m.fields.size k) ∧
      ∀ v m', Eval.call (fuel + 1) (.class k) arguments paren m = .ok v m' →
        v = .instance m.fields.size k := by
  let this : Value := .instance m.fields.size k
  let bound : Closure := { f with scope := m.scopes.size }
  have hrule : Eval.call (fuel + 1) (.class k) arguments paren m =
      (Eval.invoke (Eval.execute fuel) bound arguments >>= fun _ => pure this)
        (m.instantiated.bound f this) := by
    rw [Eval.call, Eval.callRule_class hlen hf]
    rfl
  have hmethod := hk _ _ hf
  have hthis : Value.Tied sites m.instantiated this := by
    refine ⟨?_, hk⟩
    rw [Machine.instantiated, Array.size_push]
    exact Nat.lt_succ_self _
  have hkeeps := (Machine.KeepsThis.instantiated m).trans (.bound f this)
  -- the body runs in the machine in which the initializer was bound
  have hinvoke := ties_invoke hn (ties_runs hn foresees_everything fuel).2.1
    (hm.instantiated.bound f hthis) (c := bound) hmethod.known
    fun v hv => (hargs v hv).mono hkeeps
  have hrest : Ties sites (Eval.invoke (Eval.execute fuel) bound arguments >>= fun _ => pure this)
      (fun _ signal => Eval.invoke (Eval.watchedExecute (.everything signal) fuel) bound arguments >>=
        fun _ => pure this) (m.instantiated.bound f this) fun _ _ => True :=
    hinvoke.bind fun _ _ hl _ => .pure hl.tied trivial
  refine ⟨hmethod.boundTo (m := m.instantiated) ?_, fun v m' hv => ?_⟩
  · rw [Eval.leaves, hrule] at hfinal
    exact hrest.leadsTo.toKeepsThis.trans hfinal
  · rw [hrule] at hv
    obtain ⟨_, _, -, hv⟩ := Eval.exists_of_bind_ok hv
    cases hv
    rfl

theorem bound_of_get (hm : m.Tied sites) {p : Site} {object : Expr} (hs : object.sites p ⊆ sites)
    {name : Token} {id : InstanceId} {k : ClassObject} {f : Closure} {m₁ : Machine}
    (hobject : Eval.evaluate fuel object m = .ok (.instance id k) m₁)
    (hfield : (m₁.fields[id]?).bind (·.get? name.lexeme) = none)
    (hf : k.method? name.lexeme = some f)
    (hfinal : ((Eval.evaluate (fuel + 1) (.get object name)).leaves m).KeepsThis final) :
    ∃ number c m', Eval.evaluate (fuel + 1) (.get object name) m = .ok (.function number c) m' ∧
      c.declaration.name.lexeme = name.lexeme ∧ c.BoundTo sites final.this? (.instance id k) := by
  have hrule : Eval.evaluate (fuel + 1) (.get object name) m =
      .ok (.function m₁.nextObject { f with scope := m₁.scopes.size })
        (m₁.bound f (.instance id k)).numbered := by
    show (Eval.evaluate fuel object >>= fun v => Eval.getProperty v name) m = _
    rw [bind_of_ok hobject, Eval.getProperty, get_bind, hfield, hf]
    rfl
  obtain ⟨-, hvalue⟩ :=
    ((ties_runs hn foresees_everything fuel).1 p object hm hs).ends.ok_of_eq hobject
  have hmethod := hvalue.2 _ _ hf
  refine ⟨_, _, _, hrule, hmethod.name, hmethod.boundTo ?_⟩
  rw [Eval.leaves, hrule] at hfinal
  exact ⟨hfinal.size, hfinal.instances, hfinal.this⟩

omit hn in
theorem bound_of_super (hm : m.Tied sites) {keyword : Occurrence} {method : Token} {v : Value}
    (hv : Eval.superMethod keyword method m = .ok v m') (hfinal : m'.KeepsThis final) :
    ∃ number c d this, v = .function number c ∧ m.distances[keyword.id]? = some (d + 1) ∧
      m.scopes.getAt m.current d Keyword.this.spelling = some this ∧
      c.declaration.name.lexeme = method.lexeme ∧ c.BoundTo sites final.this? this := by
  obtain ⟨d, k, superclass, this, f, hd, hsuper, hthis, hf, hbound⟩ := Eval.superMethod_ok hv
  rw [Eval.bindValue_eq] at hbound
  cases hbound
  have hmethod := hm.values k _ _ hsuper _ _ hf
  exact ⟨_, _, d, this, rfl, hd, hthis, hmethod.name, hmethod.boundTo
    ⟨hfinal.size, hfinal.instances, hfinal.this⟩⟩

/-- Behind the body of an initializer `this` is still the instance. -/
theorem result_of_initializer (hm : m.Tied sites) {number : ObjectId} {c : Closure}
    (hc : c.Tied sites m) (hargs : ∀ v ∈ arguments, v.Tied sites m) (hinit : c.isInitializer = true)
    (hfinal : m.KeepsThis final) :
    c.declaration.name.lexeme = initializerName ∧
      ∃ id k, c.BoundTo sites final.this? (.instance id k) ∧
        ∀ v m', Eval.call (fuel + 1) (.function number c) arguments paren m = .ok v m' →
          v = .instance id k := by
  cases hthis : m.this? c.scope with
  | none => cases hinit.symm.trans (hc.free hthis)
  | some this =>
    obtain ⟨hmethod, hflag⟩ := hc.bound this hthis
    obtain ⟨id, k, rfl⟩ := hm.this _ _ hthis
    refine ⟨beq_iff_eq.mp (hflag.symm.trans hinit), id, k,
      ⟨hmethod, hflag, hfinal.this_of_some hthis⟩, fun v m' hv => ?_⟩
    rw [Eval.call] at hv
    rw [Eval.callRule_function (Eval.length_of_checkArity hv), Eval.invoke_eq] at hv
    obtain ⟨ended, m₁, hbody, hresult⟩ := Eval.exists_of_bind_ok hv
    obtain ⟨hl, -⟩ := (ties_runBody hn (ties_runs hn foresees_everything fuel).2.1 hm hc.known
      hargs).ends.ok_of_eq hbody
    have hthis₁ : m₁.scopes.getAt c.scope 0 Keyword.this.spelling = some (.instance id k) :=
      hl.toKeepsThis.this_of_some hthis
    unfold Eval.resultOf at hresult
    rw [if_pos hinit, Eval.boundThis, get_bind, hthis₁] at hresult
    cases hresult
    rfl

omit hn in
theorem result_of_body {number : ObjectId} {c : Closure} (hinit : c.isInitializer = false)
    {v : Value} (hv : Eval.call (fuel + 1) (.function number c) arguments paren m = .ok v m') :
    ∃ ended, Eval.runBody (Eval.execute fuel) c arguments m = .ok ended m' ∧ v = ended.value := by
  rw [Eval.call] at hv
  rw [Eval.callRule_function (Eval.length_of_checkArity hv), Eval.invoke_eq] at hv
  obtain ⟨ended, m₁, hbody, hresult⟩ := Eval.exists_of_bind_ok hv
  unfold Eval.resultOf at hresult
  rw [hinit] at hresult
  cases ended <;> cases hresult <;> exact ⟨_, hbody, rfl⟩

/-- **What begins in a tied machine yields what it must.** -/
theorem foresees_construction :
    Foresees sites fun final signal => construction sites final.this? signal := by
  intro final signal a m ha hfinal
  refine ⟨?_, ?_, ?_, ?_, ?_⟩
  · rintro fuel k f arguments paren rfl hf
    obtain ⟨hm, hk, hargs⟩ := ha
    have hclass (hlen : arguments.length = k.arity) := constructs_class hn hm hk hargs hf hlen hfinal
    exact ⟨hm.lacks, fun hlen => (hclass hlen).1, fun v m' hv =>
      (hclass (Eval.length_of_checkArity hv)).2 v m' hv⟩
  · rintro fuel object name rfl id k f m₁ hobject hfield hf
    obtain ⟨hm, p, hs⟩ := ha
    have hobjects : object.sites p ⊆ sites := hs
    exact bound_of_get hn hm hobjects hobject hfield hf hfinal
  · rintro fuel keyword method rfl v m' hv
    rw [Activity.leaves, Eval.leaves, hv] at hfinal
    exact bound_of_super ha.1 hv hfinal
  · rintro fuel number c arguments paren rfl hinit
    obtain ⟨hm, hc, hargs⟩ := ha
    have hcall := (ties_runs hn foresees_everything (fuel + 1)).2.2 (.function number c) arguments
      paren hm hc hargs
    exact result_of_initializer hn hm hc hargs hinit (hcall.leadsTo.toKeepsThis.trans hfinal)
  · rintro fuel number c arguments paren rfl hinit v m' hv
    exact result_of_body hinit hv

end Foresight

/-! ## Tasks -/

section Tasks

variable {sites : List (Site × Mark)} {w : Machine → Interrupt → Watch} {m : Machine}

theorem ties_executeAll (hn : Unreserved sites) (hw : Foresees sites w) (fuel : Nat) (p : Site)
    (ss : List Stmt) (hm : m.Tied sites) (hat : m.AtStatement)
    (hs : Stmt.sitesAll p ss ⊆ sites) :
    Ties sites (Session.executeAll fuel ss)
      (fun final signal => Task.watchedAll (w final signal) fuel ss) m fun _ _ => True := by
  induction ss generalizing m p with
  | nil => exact .pure hm trivial
  | cons s rest ih =>
    rw [Stmt.sitesAll, List.append_subset] at hs
    have hstatement := ((ties_runs hn hw fuel).2.1 p s hm hat hs.1).watched_of
      fun final signal hfinal => hw final signal (.program fuel s) m ⟨hm, hat, p, hs.1⟩ hfinal
    exact hstatement.bind fun _ m₁ hl₁ _ => ih (p.after s) hl₁.tied (hl₁.atStatement hat) hs.2

/-- A task keeps `this`, and to watch for what is foreseen makes no difference. -/
theorem ties_task (hn : Unreserved sites) (hw : Foresees sites w) (task : Task)
    (hm : m.Tied sites) (hat : m.AtStatement) (hs : programSites task.tree ⊆ sites) :
    Ties sites task.perform (fun final signal => task.watched (w final signal)) m
      fun _ _ => True := by
  cases task with
  | program fuel ss =>
    exact (ties_executeAll hn hw fuel .start ss hm hat hs).bind
      fun _ _ hl₁ _ => .pure hl₁.tied trivial
  | expression fuel e =>
    have he : e.sites .start ⊆ sites := fun x hx => hs (List.mem_append_left _
      (List.mem_cons_of_mem _ hx))
    exact ((ties_runs hn hw fuel).1 .start e hm he).map fun _ _ _ => trivial

end Tasks

/-! ## Sessions -/

namespace Session

variable {s : Session} {sites : List (Site × Mark)}

theorem unreserved_sites (s : Session) (call : Call) : Unreserved (s.sites call) := by
  rw [sites]
  cases hlaunch : s.launch? call with
  | none => exact fun _ _ h => absurd h List.not_mem_nil
  | some task =>
    have hl := after_of_launch hlaunch
    exact fun p token h =>
      legal_of_resolve hl.regular hl.numbered.nodup hl.noError (fun _ _ => rfl) _ h

theorem unreserved_sitesAll (s : Session) (calls : List Call) : Unreserved (s.sitesAll calls) := by
  induction calls generalizing s with
  | nil => exact fun _ _ h => absurd h List.not_mem_nil
  | cons call rest ih =>
    intro p token h
    rcases List.mem_append.mp h with h | h
    · exact s.unreserved_sites call p token h
    · exact ih (s.after call) p token h

/-- Between two calls everything that can be reached is tied, and the session stands in a scope in
which statements stand. -/
structure Tied (sites : List (Site × Mark)) (s : Session) : Prop where
  machine : s.machine.Tied sites
  atStatement : s.machine.AtStatement

theorem tied_start (clock : Nat → Float) (sites : List (Site × Mark)) :
    (start clock).Tied sites where
  machine := by
    refine ⟨fun k name v hv => ?_, fun i b name v hb => ?_, fun k v hv => ?_⟩
    · rw [(own?_start hv).2]
      trivial
    · cases hb
    · exact absurd (own?_start hv).1 (by decide)
  atStatement := by
    refine ⟨size_start clock ▸ Nat.one_pos, ?_⟩
    cases hv : (start clock).machine.this? (start clock).machine.current with
    | none => rfl
    | some v => exact absurd (own?_start hv).1 (by decide)

theorem Tied.after (h : s.Tied sites) (hn : Unreserved sites) {call : Call}
    (hs : s.sites call ⊆ sites) {w : Machine → Interrupt → Watch} (hw : Foresees sites w) :
    (s.after call).Tied sites ∧ s.machine.KeepsThis (s.after call).machine ∧
      ∀ task, s.launch? call = some task → ∀ final signal,
        (s.after call).machine.KeepsThis final →
          task.watched (w final signal) (s.learned task.tree) =
            task.perform (s.learned task.tree) := by
  cases hlaunch : s.launch? call with
  | none =>
    obtain ⟨answers, hmachine⟩ := after_of_not_launch hlaunch
    have hkeeps : s.machine.KeepsThis (s.after call).machine := by
      rw [hmachine]
      exact .of_eq rfl rfl
    refine ⟨⟨?_, h.atStatement.mono hkeeps (by rw [hmachine])⟩, hkeeps, nofun⟩
    rw [hmachine]
    exact h.machine.of_eq rfl rfl
  | some task =>
    have hsites : s.sites call = programSites task.tree := by
      rw [Session.sites, hlaunch]
      rfl
    have hlearned : s.machine.KeepsThis (s.learned task.tree) := .of_eq rfl rfl
    have hties := ties_task hn hw task (m := s.learned task.tree) (h.machine.of_eq rfl rfl)
      (h.atStatement.mono hlearned rfl) (hsites ▸ hs)
    have hmachine := (after_of_launch hlaunch).machine
    have hcleared : (task.perform.leaves (s.learned task.tree)).KeepsThis (s.after call).machine := by
      rw [hmachine]
      exact .of_eq rfl rfl
    have hkeeps := hlearned.trans (hties.leadsTo.toKeepsThis.trans hcleared)
    refine ⟨⟨?_, h.atStatement.mono hkeeps ?_⟩, hkeeps, fun task' htask' final signal hfinal => ?_⟩
    · rw [hmachine]
      exact hties.leadsTo.tied.of_eq rfl rfl
    · rw [hmachine]
      exact hties.leadsTo.current
    · cases htask'
      exact hties.watched final signal (hcleared.trans hfinal)

theorem Tied.afterAll (h : s.Tied sites) (hn : Unreserved sites) (calls : List Call)
    (hs : s.sitesAll calls ⊆ sites) {w : Machine → Interrupt → Watch} (hw : Foresees sites w) :
    s.machine.KeepsThis (s.afterAll calls).machine ∧
      ∀ before call later task, calls = before ++ call :: later →
        (s.afterAll before).launch? call = some task → ∀ final signal,
          (s.afterAll calls).machine.KeepsThis final →
            task.watched (w final signal) ((s.afterAll before).learned task.tree) =
              task.perform ((s.afterAll before).learned task.tree) := by
  induction calls generalizing s with
  | nil => exact ⟨.refl _, fun before call later task hcalls => by simp at hcalls⟩
  | cons call rest ih =>
    rw [sitesAll, List.append_subset] at hs
    obtain ⟨h₁, hkeeps₁, hwatched₁⟩ := h.after hn hs.1 hw
    obtain ⟨hkeeps₂, hwatched₂⟩ := ih h₁ hs.2
    refine ⟨hkeeps₁.trans hkeeps₂, fun before call' later task hcalls hlaunch final signal hfinal => ?_⟩
    cases before with
    | nil =>
      cases hcalls
      exact hwatched₁ task hlaunch final signal (hkeeps₂.trans hfinal)
    | cons first before =>
      cases hcalls
      exact hwatched₂ before call' later task rfl hlaunch final signal hfinal

/-- **Construction yields the instance.** At every point of the history of every program without
static errors a class with an initializer yields a new instance of itself, a bound initializer
yields the instance that it was bound to, and every other function what its body returns. -/
theorem construction_yields_instance (clock : Nat → Float) (calls : List Call) :
    ∃ holders : ScopeId → Option Value,
      ∀ before call later task, calls = before ++ call :: later →
        ((start clock).afterAll before).launch? call = some task → ∀ signal,
          task.watched (construction ((start clock).sitesAll calls) holders signal)
              (((start clock).afterAll before).learned task.tree) =
            task.perform (((start clock).afterAll before).learned task.tree) := by
  have hn := unreserved_sitesAll (start clock) calls
  obtain ⟨-, hwatched⟩ := (tied_start clock _).afterAll hn calls (List.Subset.refl _)
    (foresees_construction hn)
  exact ⟨((start clock).afterAll calls).machine.this?,
    fun before call later task hcalls hlaunch signal =>
      hwatched before call later task hcalls hlaunch _ signal (.refl _)⟩

end Session

end Lox
