import Lox.Proofs.Machine.Annals

/-!
# Runs keep the annals

A run tells in the annals of every scope that it opens and of every class that it makes. Nothing is
assumed of the program: whatever begins in a machine that is up to date leaves one, however it ends.

* `Chronicled`: an activity begins and ends among what is in the annals, and what it opens is told of;
* `chronicle`: the watch for that;
* `Chronicles`: an action extends the annals, and watched for what is in them does the same;
* `Chronicles.bind`, `Chronicles.within`, `Chronicles.watched`, …: actions made up of such parts;
* **`Chronicles.opened`**: a scope is opened for an activity, `chronicles_bindValue`: for a method.
-/

namespace Lox

/-! ## The watch -/

/-- The heap grew outward, what can be reached is in the annals, and certain scopes are there. -/
structure Machine.Grown (annals : Annals) (opens : ScopeId → Prop) (m m' : Machine) : Prop where
  outward : m.Outward m'
  record : m'.OnRecord annals
  there : ∀ k, opens k → k < m'.scopes.size

/-- However the action ends, the heap grew. -/
def Eval.EndsOn {α : Type} (x : Eval α) (annals : Annals) (opens : ScopeId → Prop) (m : Machine)
    (ok : α → Machine → Prop) : Prop :=
  Ensures x m (fun a m' => Machine.Grown annals opens m m' ∧ ok a m')
    fun _ m' => Machine.Grown annals opens m m'

namespace Activity

/-- The values that an activity begins with are in the annals. -/
def Held (annals : Annals) (m : Machine) : Activity → Prop
  | .call _ callee arguments _ => callee.OnRecord annals m ∧ ∀ v ∈ arguments, v.OnRecord annals m
  | _ => True

/-- The scopes that an activity opens. -/
def OpensAt (m : Machine) (a : Activity) (k : ScopeId) : Prop := ∃ outer kind, a.Opens m k outer kind

/-- What an activity yields is in the annals, and so is what can be reached then; what it opens is
there. -/
def Ends (annals : Annals) (m : Machine) (a : Activity) : Prop :=
  match a with
  | .evaluate fuel e =>
    (Eval.evaluate fuel e).EndsOn annals (a.OpensAt m) m fun v m' => v.OnRecord annals m'
  | .execute fuel s =>
    (Eval.execute fuel s).EndsOn annals (a.OpensAt m) m fun c m' => c.OnRecord annals m'
  | .call fuel callee arguments paren =>
    (Eval.call fuel callee arguments paren).EndsOn annals (a.OpensAt m) m
      fun v m' => v.OnRecord annals m'
  | .program fuel s =>
    (Eval.execute fuel s).EndsOn annals (a.OpensAt m) m fun c m' => c.OnRecord annals m'

end Activity

/-- An activity begins and ends among what is in the annals, and the scopes that it opens are new and
told of as its own. -/
structure Chronicled (annals : Annals) (m : Machine) (a : Activity) : Prop where
  record : m.OnRecord annals
  held : a.Held annals m
  ends : a.Ends annals m
  opened : annals.Tells m a

/-- **No two activities share a scope that they open.** -/
theorem Chronicled.opens_once {annals : Annals} {m m' : Machine} {a a' : Activity} {k : ScopeId}
    {outer outer' : ScopeId} {kind kind' : Region → Prop} (h : Chronicled annals m a)
    (h' : Chronicled annals m' a') (hopens : a.Opens m k outer kind)
    (hopens' : a'.Opens m' k outer' kind') : a = a' ∧ m = m' ∧ outer = outer' := by
  have hk := (h.opened k outer kind hopens).2
  have hk' := (h'.opened k outer' kind' hopens').2
  cases hk.symm.trans hk'
  exact ⟨rfl, rfl, rfl⟩

/-- Every activity must be what the annals say. -/
def chronicle (annals : Annals) (signal : Interrupt) : Watch where
  allowed a m := Chronicled annals m a
  signal := signal

/-! ## Actions that extend the annals -/

/-- The action extends the annals to ones that contain `least`; and watched for what depends on longer
annals it does the same. -/
def Chronicles (least : Annals) {α : Type} (x : Eval α) (watched : Annals → Interrupt → Eval α)
    (m : Machine) (ok : α → Machine → Annals → Prop) : Prop :=
  Ensures x m
    (fun a m' => ∃ annals, least.Within annals ∧ m.Outward m' ∧ m'.UpToDate annals ∧ ok a m' annals ∧
      ∀ final signal, annals.Within final → watched final signal m = .ok a m')
    fun e m' => ∃ annals, least.Within annals ∧ m.Outward m' ∧ m'.UpToDate annals ∧
      ∀ final signal, annals.Within final → watched final signal m = .error e m'

section Laws

variable {annals least least' : Annals} {α β : Type} {x : Eval α} {xw : Annals → Interrupt → Eval α}
  {m m' : Machine} {ok : α → Machine → Annals → Prop}

namespace Chronicles

theorem weaken (h : Chronicles least' x xw m ok) (hw : least.Within least') :
    Chronicles least x xw m ok := by
  refine Ensures.mono h (fun a m' _ h => ?_) fun e m' h => ?_
  · obtain ⟨annals, hleast, hrest⟩ := h
    exact ⟨annals, hw.trans hleast, hrest⟩
  · obtain ⟨annals, hleast, hrest⟩ := h
    exact ⟨annals, hw.trans hleast, hrest⟩

theorem step {a : α} (hx : x m = .ok a m') (ho : m.Outward m') (hm : m'.UpToDate least)
    (hok : ok a m' least) : Chronicles least x (fun _ _ => x) m ok :=
  (ensures_of_eq_ok hx).mpr ⟨least, .refl _, ho, hm, hok, fun _ _ _ => hx⟩

theorem halt {e : Interrupt} (hx : x m = .error e m) (hm : m.UpToDate least) :
    Chronicles least x (fun _ _ => x) m ok := by
  rw [Chronicles, Ensures, hx]
  exact ⟨least, .refl _, .refl _, hm, fun _ _ _ => rfl⟩

theorem pure {a : α} (hm : m.UpToDate least) (hok : ok a m least) :
    Chronicles least (Pure.pure a) (fun _ _ => Pure.pure a) m ok :=
  step rfl (.refl m) hm hok

theorem throw {e : Interrupt} (hm : m.UpToDate least) :
    Chronicles least (MonadExcept.throw e : Eval α) (fun _ _ => MonadExcept.throw e) m ok :=
  halt rfl hm

/-- **Parts that follow one another** extend the annals one after the other. -/
theorem bind {f : α → Eval β} {fw : Annals → Interrupt → α → Eval β}
    {ok' : β → Machine → Annals → Prop} (h : Chronicles least x xw m ok)
    (hf : ∀ a m₁ annals₁, least.Within annals₁ → m.Outward m₁ → m₁.UpToDate annals₁ →
      ok a m₁ annals₁ →
      Chronicles annals₁ (f a) (fun final signal => fw final signal a) m₁ ok') :
    Chronicles least (x >>= f) (fun final signal => xw final signal >>= fw final signal) m ok' := by
  refine Ensures.bind h (fun a m₁ _ h₁ => ?_) fun e m₁ h₁ => ?_
  · obtain ⟨annals₁, hw₁, ho₁, hm₁, ha, hsame₁⟩ := h₁
    refine Ensures.mono (hf a m₁ annals₁ hw₁ ho₁ hm₁ ha) (fun b m₂ _ h₂ => ?_) fun e m₂ h₂ => ?_
    · obtain ⟨annals₂, hw₂, ho₂, hm₂, hb, hsame₂⟩ := h₂
      exact ⟨annals₂, hw₁.trans hw₂, ho₁.trans ho₂, hm₂, hb, fun final signal hfinal =>
        (bind_of_ok (hsame₁ final signal (hw₂.trans hfinal))).trans (hsame₂ final signal hfinal)⟩
    · obtain ⟨annals₂, hw₂, ho₂, hm₂, hsame₂⟩ := h₂
      exact ⟨annals₂, hw₁.trans hw₂, ho₁.trans ho₂, hm₂, fun final signal hfinal =>
        (bind_of_ok (hsame₁ final signal (hw₂.trans hfinal))).trans (hsame₂ final signal hfinal)⟩
  · obtain ⟨annals₁, hw₁, ho₁, hm₁, hsame₁⟩ := h₁
    exact ⟨annals₁, hw₁, ho₁, hm₁, fun final signal hfinal =>
      bind_of_error (hsame₁ final signal hfinal)⟩

theorem map {f : α → β} {ok' : β → Machine → Annals → Prop} (h : Chronicles least x xw m ok)
    (hok : ∀ a m₁ annals₁, ok a m₁ annals₁ → ok' (f a) m₁ annals₁) :
    Chronicles least (f <$> x) (fun final signal => f <$> xw final signal) m ok' :=
  h.bind fun a m₁ annals₁ _ _ hm₁ ha => .pure hm₁ (hok a m₁ annals₁ ha)

theorem get {f : Machine → Eval β} {fw : Annals → Interrupt → Machine → Eval β}
    {ok' : β → Machine → Annals → Prop}
    (h : Chronicles least (f m) (fun final signal => fw final signal m) m ok') :
    Chronicles least (MonadState.get >>= f) (fun final signal => MonadState.get >>= fw final signal) m
      ok' := h

theorem within {k : ScopeId} (hcurrent : m.current < m.scopes.size)
    (h : Chronicles least x xw { m with current := k } ok)
    (hok : ∀ a m' annals, ok a m' annals → ok a { m' with current := m.current } annals) :
    Chronicles least (Eval.within k x) (fun final signal => Eval.within k (xw final signal)) m ok := by
  have hback {m' : Machine} {annals : Annals} (ho : Machine.Outward { m with current := k } m')
      (hm : m'.UpToDate annals) : m.Outward { m' with current := m.current } ∧
        Machine.UpToDate annals { m' with current := m.current } :=
    ⟨⟨ho.size, ho.parent, ho.bound, ho.objects, ho.instances, ho.globals⟩,
      hm.of_eq rfl rfl rfl (Nat.le_refl _) (Nat.lt_of_lt_of_le hcurrent ho.size)⟩
  unfold Chronicles Ensures at h ⊢
  simp only [Eval.within]
  cases hx : x { m with current := k } with
  | ok a m' =>
    rw [hx] at h
    obtain ⟨annals, hw, ho, hm, ha, hsame⟩ := h
    obtain ⟨ho', hm'⟩ := hback ho hm
    refine ⟨annals, hw, ho', hm', hok a m' annals ha, fun final signal hfinal => ?_⟩
    rw [hsame final signal hfinal]
  | error e m' =>
    rw [hx] at h
    obtain ⟨annals, hw, ho, hm, hsame⟩ := h
    obtain ⟨ho', hm'⟩ := hback ho hm
    refine ⟨annals, hw, ho', hm', fun final signal hfinal => ?_⟩
    rw [hsame final signal hfinal]

/-- An activity that is told of in all longer annals may begin. -/
theorem watched {a : Activity} (h : Chronicles least x xw m ok) (htells : least.Tells m a)
    (hok : ∀ b m' annals final, annals.Within final → ok b m' annals → ok b m' final)
    (ha : ∀ final, least.Within final → x.EndsOn final (a.OpensAt m) m (fun b m' => ok b m' final) →
      Chronicled final m a) :
    Chronicles least x
      (fun final signal => Eval.watched (chronicle final signal) a (xw final signal)) m ok := by
  -- annals that are up to date tell of no scope that is not there
  have hgrown {m' : Machine} {annals final : Annals} (hw : least.Within annals)
      (hfinal : annals.Within final) (ho : m.Outward m') (hm : m'.UpToDate annals) :
      Machine.Grown final (a.OpensAt m) m m' := by
    refine ⟨ho, hm.toOnRecord.widen hfinal, fun k hk => ?_⟩
    obtain ⟨outer, kind, hopens⟩ := hk
    have htold := hw.openings k _ (htells k outer kind hopens).2
    exact Nat.lt_of_not_le fun hle => by cases htold.symm.trans (hm.openings k hle)
  have hallowed {final : Annals} (hw : least.Within final)
      (hends : x.EndsOn final (a.OpensAt m) m fun b m' => ok b m' final) (signal : Interrupt) :
      Eval.watched (chronicle final signal) a (xw final signal) m = xw final signal m :=
    if_pos (ha final hw hends)
  unfold Chronicles Ensures at h ⊢
  cases hx : x m with
  | ok b m' =>
    rw [hx] at h
    obtain ⟨annals, hw, ho, hm, hb, hsame⟩ := h
    refine ⟨annals, hw, ho, hm, hb, fun final signal hfinal => ?_⟩
    have hends : x.EndsOn final (a.OpensAt m) m fun b m' => ok b m' final :=
      (ensures_of_eq_ok hx).mpr ⟨hgrown hw hfinal ho hm, hok b m' annals final hfinal hb⟩
    exact (hallowed (hw.trans hfinal) hends signal).trans (hsame final signal hfinal)
  | error e m' =>
    rw [hx] at h
    obtain ⟨annals, hw, ho, hm, hsame⟩ := h
    refine ⟨annals, hw, ho, hm, fun final signal hfinal => ?_⟩
    have hends : x.EndsOn final (a.OpensAt m) m fun b m' => ok b m' final := by
      rw [Eval.EndsOn, Ensures, hx]
      exact hgrown hw hfinal ho hm
    exact (hallowed (hw.trans hfinal) hends signal).trans (hsame final signal hfinal)

theorem after {a : α} {f : α → Eval β} {fw : Annals → Interrupt → α → Eval β}
    {ok' : β → Machine → Annals → Prop} (hx : x m = .ok a m') (ho : m.Outward m')
    (hxw : ∀ final signal, least.Within final → xw final signal m = .ok a m')
    (h : Chronicles least (f a) (fun final signal => fw final signal a) m' ok') :
    Chronicles least (x >>= f) (fun final signal => xw final signal >>= fw final signal) m ok' := by
  rw [Chronicles, ensures_congr (bind_of_ok hx)]
  refine Ensures.mono h (fun b m₂ _ h₂ => ?_) fun e m₂ h₂ => ?_
  · obtain ⟨annals, hw, ho₂, hm₂, hb, hsame⟩ := h₂
    exact ⟨annals, hw, ho.trans ho₂, hm₂, hb, fun final signal hfinal =>
      (bind_of_ok (hxw final signal (hw.trans hfinal))).trans (hsame final signal hfinal)⟩
  · obtain ⟨annals, hw, ho₂, hm₂, hsame⟩ := h₂
    exact ⟨annals, hw, ho.trans ho₂, hm₂, fun final signal hfinal =>
      (bind_of_ok (hxw final signal (hw.trans hfinal))).trans (hsame final signal hfinal)⟩

/-- **A scope is opened** and told of, and the action goes on with it. -/
theorem opened {o : Opening} {f : ScopeId → Eval α} {fw : Annals → Interrupt → ScopeId → Eval α}
    (hm : m.UpToDate annals) (ho : o.outer < m.scopes.size)
    (hf : (m.opened o.outer).UpToDate (annals.opened m.scopes.size o) →
      Chronicles (annals.opened m.scopes.size o) (f m.scopes.size)
        (fun final signal => fw final signal m.scopes.size) (m.opened o.outer) ok) :
    Chronicles (annals.opened m.scopes.size o) (Eval.openScope o.outer >>= f)
      (fun final signal => Eval.openScope o.outer >>= fw final signal) m ok :=
  after (Eval.openScope_eq o.outer m) (.opened m o.outer) (fun _ _ _ => Eval.openScope_eq o.outer m)
    (hf (hm.opened ho))

/-- What the whole opens is told of where its second part opens it. -/
theorem exists_bind {tells : Annals → Prop} {f : α → Eval β} {fw : Annals → Interrupt → α → Eval β}
    {ok' : β → Machine → Annals → Prop} (h : Chronicles annals x xw m ok)
    (hf : ∀ a m₁ annals₁, x m = .ok a m₁ → m.Outward m₁ → m₁.UpToDate annals₁ → ok a m₁ annals₁ →
      ∃ least, annals₁.Within least ∧ tells least ∧
        Chronicles least (f a) (fun final signal => fw final signal a) m₁ ok')
    (herror : ∀ e m₁ annals₁, x m = .error e m₁ → tells annals₁) :
    ∃ least, annals.Within least ∧ tells least ∧
      Chronicles least (x >>= f) (fun final signal => xw final signal >>= fw final signal) m ok' := by
  cases hx : x m with
  | ok a m₁ =>
    obtain ⟨annals₁, hw₁, ho₁, hm₁, ha, hsame₁⟩ := Ensures.ok_of_eq h hx
    obtain ⟨least, hw, htells, hrest⟩ := hf a m₁ annals₁ hx ho₁ hm₁ ha
    exact ⟨least, hw₁.trans hw, htells, after hx ho₁
      (fun final signal hfinal => hsame₁ final signal (hw.trans hfinal)) hrest⟩
  | error e m₁ =>
    obtain ⟨annals₁, hw₁, ho₁, hm₁, hsame₁⟩ := Ensures.halt_of_eq h hx
    refine ⟨annals₁, hw₁, herror e m₁ annals₁ hx, ?_⟩
    rw [Chronicles, Ensures, bind_of_error hx]
    exact ⟨annals₁, .refl _, ho₁, hm₁, fun final signal hfinal =>
      bind_of_error (hsame₁ final signal hfinal)⟩

end Chronicles

/-! ## Single steps -/

variable {v : Value} {name : String} {k : ScopeId}

theorem chronicles_fail (hm : m.UpToDate least) (problem : RuntimeProblem) (place : Token) :
    Chronicles least (Eval.fail problem place) (fun _ _ => Eval.fail problem place) m ok :=
  .throw hm

theorem chronicles_ofExcept (hm : m.UpToDate least) (place : Token) (r : Except RuntimeProblem α)
    (hok : ∀ a, r = .ok a → ok a m least) :
    Chronicles least (Eval.ofExcept place r) (fun _ _ => Eval.ofExcept place r) m ok := by
  cases r with
  | ok a => exact .pure hm (hok a rfl)
  | error problem => exact chronicles_fail hm problem place

theorem chronicles_write (hm : m.UpToDate least) (text : String) :
    Chronicles least (Eval.write text) (fun _ _ => Eval.write text) m fun _ _ _ => True :=
  .step rfl (.of_same rfl rfl rfl rfl) (hm.of_eq rfl rfl rfl (Nat.le_refl _) hm.current) trivial

theorem chronicles_print (hm : m.UpToDate least) (line : String) :
    Chronicles least (Eval.print line) (fun _ _ => Eval.print line) m fun _ _ _ => True := by
  refine (chronicles_write hm _).bind fun answer _ _ _ _ hm₁ _ => ?_
  cases answer with
  | none => exact .pure hm₁ trivial
  | some refusal => exact .throw hm₁

theorem chronicles_define (hm : m.UpToDate least) (hv : v.OnRecord least m) :
    Chronicles least (Eval.define k name v) (fun _ _ => Eval.define k name v) m fun _ _ _ => True :=
  .step rfl (.defined m k name v) (hm.defined hv k name) trivial

theorem chronicles_defineHere (hm : m.UpToDate least) (hv : v.OnRecord least m) :
    Chronicles least (Eval.defineHere name v) (fun _ _ => Eval.defineHere name v) m
      fun _ _ _ => True := by
  unfold Eval.defineHere
  exact .get (chronicles_define hm hv)

theorem chronicles_read (hm : m.UpToDate least) (use : Occurrence) :
    Chronicles least (Eval.read use) (fun _ _ => Eval.read use) m
      fun v m' annals => v.OnRecord annals m' := by
  rcases Eval.read_cases use m with ⟨v, k, hv, hown⟩ | ⟨e, he⟩
  · exact .step hv (.refl m) hm (hm.values k _ v hown)
  · exact .halt he hm

theorem chronicles_assign (hm : m.UpToDate least) {target : Occurrence} (hv : v.OnRecord least m) :
    Chronicles least (Eval.assign target v) (fun _ _ => Eval.assign target v) m
      fun _ _ _ => True := by
  have hlocate : Chronicles least (Eval.locate target) (fun _ _ => Eval.locate target) m
      fun _ m' _ => m' = m := by
    refine .get ?_
    cases m.holder? target with
    | some holder => exact .pure hm rfl
    | none => exact .throw hm
  refine hlocate.bind fun holder m₁ annals₁ hw₁ ho₁ hm₁ _ => ?_
  exact chronicles_define hm₁ (hv.mono hw₁ ho₁)

theorem Value.Plain.onRecord (h : v.Plain) : v.OnRecord annals m := by
  cases v <;> trivial

/-- **A method is bound** in a scope that is told of. -/
theorem chronicles_bindValue (hm : m.UpToDate annals) {method : Closure}
    (hscope : method.scope < m.scopes.size) (hv : v.OnRecord annals m) {o : Opening}
    (ho : o.outer = method.scope) {x : Eval Value} (hx : x m = Eval.bindValue method v m) :
    Chronicles (annals.opened m.scopes.size o) x (fun _ _ => x) m
      fun v m' annals' => v.OnRecord annals' m' := by
  refine .step hx ((Machine.Outward.bound_method m method v).trans (.numbered _))
    (hm.bound hscope hv ho).numbered ⟨Nat.lt_succ_self _, ?_⟩
  exact Nat.lt_of_lt_of_eq (Nat.lt_succ_self _) (m.size_bound method v).symm

end Laws

end Lox
