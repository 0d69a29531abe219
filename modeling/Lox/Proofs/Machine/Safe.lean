import Lox.Proofs.Ensures
import Lox.Proofs.Machine.Mirror
import Lox.Proofs.Machine.Watch

/-!
# Safe actions

An action is safe if it leads from a good machine to a good machine, and watching it makes no
difference. The scopes that it opens are instances of scopes of the program: their origins follow
the ones that are there.

* `Ending`: what a watch may depend on;
* `Safe`: an action and the same action watched, with what holds behind it; `SafeWith`: with what is
  known of the scopes that it opens;
* `SafeWith.bind`, `SafeWith.within`, …: actions made up of safe parts;
* `safe_define`, `safe_openScope`, …: the single steps of a machine.
-/

namespace Lox

/-- What a watch may depend on: the origins of all scopes, those that are still to be opened
included, and what a run stops with that it does not allow. -/
structure Ending where
  labels : Origins
  signal : Interrupt

/-- From a good machine the action leads to a good one, and watched it does the same; `E` says what
is known of the origins behind the action. -/
def SafeWith (known : List (Site × Mark)) (E : Origins → Prop) {α : Type} (x : Eval α)
    (watched : Ending → Eval α) (m : Machine) (o : Origins)
    (ok : α → Machine → Origins → Prop) : Prop :=
  ∃ o', E o' ∧ (∀ final, o' <+: final.labels → watched final m = x m) ∧
    Ensures x m (fun a m' => m'.Good known o' ∧ m.Resumes o m' o' ∧ ok a m' o')
      (fun _ m' => m'.Good known o' ∧ m.Resumes o m' o')

/-- Nothing is said of the origins behind the action. -/
def Safe (known : List (Site × Mark)) {α : Type} (x : Eval α) (watched : Ending → Eval α)
    (m : Machine) (o : Origins) (ok : α → Machine → Origins → Prop) : Prop :=
  SafeWith known (fun _ => True) x watched m o ok

section Laws

variable {known : List (Site × Mark)} {E E' : Origins → Prop} {α β : Type} {x : Eval α}
  {xw : Ending → Eval α} {m : Machine} {o : Origins} {ok ok' : α → Machine → Origins → Prop}

theorem origins_of_ensures {o' : Origins}
    (h : Ensures x m (fun a m' => m'.Good known o' ∧ m.Resumes o m' o' ∧ ok a m' o')
      (fun _ m' => m'.Good known o' ∧ m.Resumes o m' o')) : o <+: o' := by
  cases hx : x m with
  | error e m' => exact (h.halt_of_eq hx).2.origins
  | ok a m' => exact (h.ok_of_eq hx).2.1.origins

namespace SafeWith

theorem mono (h : SafeWith known E x xw m o ok)
    (hok : ∀ a m' o', m'.Good known o' → m.Resumes o m' o' → ok a m' o' → ok' a m' o') :
    SafeWith known E x xw m o ok' := by
  obtain ⟨o', hE, hw, he⟩ := h
  exact ⟨o', hE, hw,
    he.mono (fun a m' _ h => ⟨h.1, h.2.1, hok a m' o' h.1 h.2.1 h.2.2⟩) fun _ _ h => h⟩

theorem origins (h : SafeWith known E x xw m o ok) :
    SafeWith known (fun o' => E o' ∧ o <+: o') x xw m o ok := by
  obtain ⟨o', hE, hw, he⟩ := h
  exact ⟨o', ⟨hE, origins_of_ensures he⟩, hw, he⟩

theorem imp (h : SafeWith known E x xw m o ok) (hE : ∀ o', E o' → E' o') :
    SafeWith known E' x xw m o ok := by
  obtain ⟨o', hE', h⟩ := h
  exact ⟨o', hE o' hE', h⟩

/-- **Safe parts that follow one another make up a safe action.** -/
theorem bind {f : α → Eval β} {fw : Ending → α → Eval β} {ok' : β → Machine → Origins → Prop}
    (h : SafeWith known E x xw m o ok)
    (hf : ∀ a m₁ o₁, x m = .ok a m₁ → E o₁ → m₁.Good known o₁ → m.Resumes o m₁ o₁ → ok a m₁ o₁ →
      SafeWith known E' (f a) (fun final => fw final a) m₁ o₁ ok')
    (hstop : ∀ e m₁ o₁, x m = .error e m₁ → o <+: o₁ → E o₁ → E' o₁) :
    SafeWith known E' (x >>= f) (fun final => xw final >>= fw final) m o ok' := by
  obtain ⟨o₁, hE, hw, he⟩ := h
  cases hx : x m with
  | error e m₁ =>
    obtain ⟨hg, hr⟩ := he.halt_of_eq hx
    refine ⟨o₁, hstop e m₁ o₁ hx hr.origins hE, fun final hfinal => ?_, ?_⟩
    · show (xw final >>= fw final) m = _
      rw [bind_of_error hx, bind_of_error ((hw final hfinal).trans hx)]
    · rw [Ensures, bind_of_error hx]
      exact ⟨hg, hr⟩
  | ok a m₁ =>
    obtain ⟨hg, hr, ha⟩ := he.ok_of_eq hx
    obtain ⟨o₂, hE₂, hw₂, he₂⟩ := hf a m₁ o₁ hx hE hg hr ha
    have horigins := origins_of_ensures he₂
    refine ⟨o₂, hE₂, fun final hfinal => ?_, ?_⟩
    · show (xw final >>= fw final) m = _
      rw [bind_of_ok hx, bind_of_ok ((hw final (horigins.trans hfinal)).trans hx)]
      exact hw₂ final hfinal
    · rw [Ensures, bind_of_ok hx]
      exact he₂.mono (fun b m₂ _ h => ⟨h.1, hr.trans h.2.1, h.2.2⟩)
        fun e m₂ h => ⟨h.1, hr.trans h.2⟩

theorem bind_ok {f : α → Eval β} {fw : Ending → α → Eval β} {ok' : β → Machine → Origins → Prop}
    {a : α} {m₁ : Machine} (h : SafeWith known E x xw m o ok) (hx : x m = .ok a m₁)
    (hf : ∀ o₁, E o₁ → m₁.Good known o₁ → m.Resumes o m₁ o₁ → ok a m₁ o₁ →
      SafeWith known E' (f a) (fun final => fw final a) m₁ o₁ ok') :
    SafeWith known E' (x >>= f) (fun final => xw final >>= fw final) m o ok' := by
  refine h.bind (fun b m₂ o₂ hb => ?_) fun e m₂ _ he => ?_
  · cases hx.symm.trans hb
    exact hf o₂
  · cases hx.symm.trans he

theorem get {f : Machine → Eval β} {fw : Ending → Machine → Eval β}
    {ok' : β → Machine → Origins → Prop}
    (h : SafeWith known E (f m) (fun final => fw final m) m o ok') :
    SafeWith known E (MonadState.get >>= f) (fun final => MonadState.get >>= fw final) m o ok' := h

theorem watched {watch : Ending → Watch} {a : Activity} (h : SafeWith known E x xw m o ok)
    (ha : ∀ o' final, o <+: o' → E o' → o' <+: final.labels → (watch final).allowed a m) :
    Safe known x (fun final => Eval.watched (watch final) a (xw final)) m o ok := by
  obtain ⟨o', hE, hw, he⟩ := h
  refine ⟨o', trivial, fun final hfinal => ?_, he⟩
  show Eval.watched _ _ _ m = _
  rw [Eval.watched_of_allowed (ha o' final (origins_of_ensures he) hE hfinal)]
  exact hw final hfinal

theorem within {k : ScopeId} (h : SafeWith known E x xw { m with current := k } o ok)
    (ok' : α → Machine → Origins → Prop)
    (hok : ∀ a m' o', m'.Good known o' → m.Extends o m' o' → ok a m' o' →
      ok' a { m' with current := m.current } o') :
    SafeWith known E (Eval.within k x) (fun final => Eval.within k (xw final)) m o ok' := by
  obtain ⟨o', hE, hw, he⟩ := h
  have hback {m' : Machine} (hg : m'.Good known o')
      (hr : ({ m with current := k } : Machine).Resumes o m' o') :
      ({ m' with current := m.current } : Machine).Good known o' ∧
        m.Resumes o { m' with current := m.current } o' ∧ m.Extends o m' o' := by
    have hin : m.Extends o { m with current := k } o := .of_scopes_eq rfl rfl rfl
    have hm : m.Extends o m' o' := hin.trans hr.toExtends
    exact ⟨hg.of_eq rfl rfl rfl rfl, ⟨hm.trans (.of_scopes_eq rfl rfl rfl), rfl⟩, hm⟩
  refine ⟨o', hE, fun final hfinal => ?_, ?_⟩
  · show Eval.within k (xw final) m = _
    rw [Eval.within, hw final hfinal]
    rfl
  · rw [Ensures, Eval.within]
    cases hx : x { m with current := k } with
    | ok a m' =>
      obtain ⟨hg, hr, ha⟩ := he.ok_of_eq hx
      obtain ⟨hg', hr', hm⟩ := hback hg hr
      exact ⟨hg', hr', hok a m' o' hg hm ha⟩
    | error e m' =>
      obtain ⟨hg, hr⟩ := he.halt_of_eq hx
      obtain ⟨hg', hr', -⟩ := hback hg hr
      exact ⟨hg', hr'⟩

end SafeWith

namespace Safe

theorem of_ensures (o' : Origins)
    (h : Ensures x m (fun a m' => m'.Good known o' ∧ m.Resumes o m' o' ∧ ok a m' o')
      (fun _ m' => m'.Good known o' ∧ m.Resumes o m' o')) : Safe known x (fun _ => x) m o ok :=
  ⟨o', trivial, fun _ _ => rfl, h⟩

theorem pure {a : α} (hg : m.Good known o) (h : ok a m o) :
    Safe known (Pure.pure a) (fun _ => Pure.pure a) m o ok :=
  of_ensures o ⟨hg, .refl, h⟩

theorem throw {e : Interrupt} (hg : m.Good known o) :
    Safe known (MonadExcept.throw e : Eval α) (fun _ => MonadExcept.throw e) m o ok :=
  of_ensures o (show m.Good known o ∧ m.Resumes o m o from ⟨hg, .refl⟩)

theorem mono (h : Safe known x xw m o ok)
    (hok : ∀ a m' o', m'.Good known o' → m.Resumes o m' o' → ok a m' o' → ok' a m' o') :
    Safe known x xw m o ok' :=
  SafeWith.mono h hok

theorem bind {f : α → Eval β} {fw : Ending → α → Eval β} {ok' : β → Machine → Origins → Prop}
    (h : Safe known x xw m o ok)
    (hf : ∀ a m₁ o₁, m₁.Good known o₁ → m.Resumes o m₁ o₁ → ok a m₁ o₁ →
      Safe known (f a) (fun final => fw final a) m₁ o₁ ok') :
    Safe known (x >>= f) (fun final => xw final >>= fw final) m o ok' :=
  SafeWith.bind h (fun a m₁ o₁ _ _ => hf a m₁ o₁) fun _ _ _ _ _ h => h

theorem map {f : α → β} {ok' : β → Machine → Origins → Prop} (h : Safe known x xw m o ok)
    (hok : ∀ a m₁ o₁, m₁.Good known o₁ → m.Resumes o m₁ o₁ → ok a m₁ o₁ → ok' (f a) m₁ o₁) :
    Safe known (f <$> x) (fun final => f <$> xw final) m o ok' :=
  h.bind fun a m₁ o₁ hg hr ha => .pure hg (hok a m₁ o₁ hg hr ha)

theorem get {f : Machine → Eval β} {fw : Ending → Machine → Eval β}
    {ok' : β → Machine → Origins → Prop}
    (h : Safe known (f m) (fun final => fw final m) m o ok') :
    Safe known (MonadState.get >>= f) (fun final => MonadState.get >>= fw final) m o ok' := h

theorem within {k : ScopeId} (h : Safe known x xw { m with current := k } o ok)
    (ok' : α → Machine → Origins → Prop)
    (hok : ∀ a m' o', m'.Good known o' → m.Extends o m' o' → ok a m' o' →
      ok' a { m' with current := m.current } o') :
    Safe known (Eval.within k x) (fun final => Eval.within k (xw final)) m o ok' :=
  SafeWith.within h ok' hok

theorem with_origins (h : Safe known x xw m o ok) (hE : ∀ o', o <+: o' → E o') :
    SafeWith known E x xw m o ok :=
  h.origins.imp fun o' ho => hE o' ho.2

theorem with_ok (h : Safe known x xw m o ok) {a : α} {m₁ : Machine} (hx : x m = .ok a m₁)
    (hE : ∀ o', m.Resumes o m₁ o' → ok a m₁ o' → E o') : SafeWith known E x xw m o ok := by
  obtain ⟨o', -, hw, he⟩ := h
  obtain ⟨-, hr, ha⟩ := he.ok_of_eq hx
  exact ⟨o', hE o' hr ha, hw, he⟩

end Safe

end Laws

/-! ## Single steps -/

section Steps

variable {known : List (Site × Mark)} {m : Machine} {o : Origins} {α : Type}
  {ok : α → Machine → Origins → Prop}

theorem safe_fail (hg : m.Good known o) (problem : RuntimeProblem) (place : Token) :
    Safe known (Eval.fail problem place) (fun _ => Eval.fail problem place) m o ok :=
  .throw hg

theorem safe_outOfFuel (hg : m.Good known o) :
    Safe known Eval.outOfFuel (fun _ => Eval.outOfFuel) m o ok :=
  .throw hg

theorem safe_ofExcept (hg : m.Good known o) (place : Token) (r : Except RuntimeProblem α)
    (hok : ∀ a, r = .ok a → ok a m o) :
    Safe known (Eval.ofExcept place r) (fun _ => Eval.ofExcept place r) m o ok := by
  cases r with
  | ok a => exact .pure hg (hok a rfl)
  | error problem => exact safe_fail hg problem place

theorem safe_modifyGet {f : Machine → α × Machine} (hg : m.Good known o)
    (hs : (f m).2.scopes = m.scopes) (hf : (f m).2.fields = m.fields)
    (hc : (f m).2.current = m.current) (hgl : (f m).2.globals = m.globals)
    (hd : (f m).2.distances = m.distances) (hok : ok (f m).1 (f m).2 o) :
    Safe known (modifyGet f) (fun _ => modifyGet f) m o ok :=
  .of_ensures o ⟨hg.of_eq hs hf hgl hd, ⟨.of_scopes_eq hs hgl hd, hc⟩, hok⟩

theorem safe_freshObject (hg : m.Good known o) :
    Safe known Eval.freshObject (fun _ => Eval.freshObject) m o fun _ _ _ => True :=
  safe_modifyGet hg rfl rfl rfl rfl rfl trivial

theorem safe_readClock (hg : m.Good known o) :
    Safe known Eval.readClock (fun _ => Eval.readClock) m o fun v m' o' => v.Good known o' m' :=
  safe_modifyGet hg rfl rfl rfl rfl rfl trivial

theorem safe_write (hg : m.Good known o) (text : String) :
    Safe known (Eval.write text) (fun _ => Eval.write text) m o fun _ _ _ => True :=
  safe_modifyGet hg rfl rfl rfl rfl rfl trivial

theorem safe_print (hg : m.Good known o) (line : String) :
    Safe known (Eval.print line) (fun _ => Eval.print line) m o fun _ _ _ => True := by
  refine (safe_write hg _).bind fun answer _ _ hg₁ _ _ => ?_
  cases answer with
  | none => exact .pure hg₁ trivial
  | some refusal => exact .throw hg₁

theorem safe_openScope {k : ScopeId} {frames : List Frame} (hg : m.Good known o)
    (hm : Mirrors m o k frames) (region : Region) :
    Safe known (Eval.openScope k) (fun _ => Eval.openScope k) m o fun scope m' o' =>
      Mirrors m' o' scope (⟨region, []⟩ :: frames) ∧ m'.scopes.parent? scope = some k ∧
        ∀ name, m'.scopes.own? scope name = none := by
  refine .of_ensures (o ++ [region :: frames.map Frame.region])
    ⟨hg.opened k _, ⟨m.extends_opened k _, rfl⟩, hm.opened hg region,
      Scopes.parent?_push_size _ (hm.lt_size hg), fun name => ?_⟩
  exact (Scopes.own?_push _ _ _ _).trans (Scopes.own?_eq_none _ (Nat.le_refl _) name)

theorem safe_define {k : ScopeId} {f : Frame} {frames : List Frame} {name : String} {v : Value}
    (hg : m.Good known o) (hm : Mirrors m o k (f :: frames))
    (hname : ∀ w : Keyword, name = w.spelling → m.scopes.own? k name = none)
    (hsuper : name = Keyword.super.spelling → ∃ c, v = .class c)
    (hv : ∀ m', m.Extends o m' o → m'.current = m.current →
      Mirrors m' o k ({ f with names := name :: f.names } :: frames) → v.Good known o m') :
    Safe known (Eval.define k name v) (fun _ => Eval.define k name v) m o fun _ m' o' =>
      Mirrors m' o' k ({ f with names := name :: f.names } :: frames) := by
  have hk := hm.lt_size hg
  have he : m.Extends o (m.defined k name v) o := Machine.extends_defined hk hname
  have hown : (m.defined k name v).scopes.own? k name = some v :=
    (Machine.own?_defined hk k name).trans (if_pos ⟨rfl, rfl⟩)
  have hm' := (hm.extends he).declare hown hsuper
  exact .of_ensures o ⟨hg.defined hk hname (hv _ he rfl hm'), ⟨he, rfl⟩, hm'⟩

theorem safe_freshInstance {c : ClassObject} (hg : m.Good known o) (hc : c.Good known o m) :
    Safe known (Eval.freshInstance c) (fun _ => Eval.freshInstance c) m o fun v m' o' =>
      v.Good known o' m' :=
  .of_ensures o ⟨hg.instantiated, ⟨.of_scopes_eq rfl rfl rfl, rfl⟩,
    ClassObject.Good.extends hc (.of_scopes_eq rfl rfl rfl)⟩

theorem safe_setField {v : Value} (hg : m.Good known o) (hv : v.Good known o m) (id : InstanceId)
    (name : String) :
    Safe known (Eval.setField id name v) (fun _ => Eval.setField id name v) m o fun _ _ _ => True :=
  .of_ensures o ⟨hg.set_field hv id name, ⟨.of_scopes_eq rfl rfl rfl, rfl⟩, trivial⟩

end Steps

end Lox
