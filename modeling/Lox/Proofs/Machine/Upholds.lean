import Lox.Proofs.Machine.Lineage
import Lox.Proofs.Machine.SafeRun

/-!
# Runs keep the record of classes

A run that is watched so that every activity begins at a place of the program, in a good machine,
extends the record of the classes that it makes, and every class in its reach owns its methods.

* `beginning`: the watch for good beginnings, `permits_beginning`;
* `Record`: what another watch may depend on;
* `Upholds`: an action extends the record, and watched for something else does the same;
* `Upholds.bind`, `Upholds.within`, `Upholds.watched`, …: actions made up of such parts;
* `upholds_superMethod`, `upholds_callRule`, `upholds_executeRule`, …: the rules of evaluation.
-/

namespace Lox

/-- What begins does so at a site of the program, in a good machine. -/
def Lawful (sites : List (Site × Mark)) (labels : Origins) (m : Machine) (a : Activity) : Prop :=
  Labelled labels (a.Opens m) ∧ ∃ known o, known ⊆ sites ∧ o <+: labels ∧ Begins known o m a

/-- Every activity must begin at a site of the program. -/
def beginning (sites : List (Site × Mark)) (e : Ending) : Watch where
  allowed a m := Lawful sites e.labels m a
  signal := e.signal

theorem permits_beginning {known sites : List (Site × Mark)} (hsub : known ⊆ sites) :
    Permits known (beginning sites) :=
  fun o _ _ _ ho hb hl => ⟨hl, known, o, hsub, ho, hb⟩

/-- What the other watch may depend on: the classes that are ever made, and what a run stops with that
it does not allow. -/
structure Record where
  births : Births
  signal : Interrupt

/-- The action extends the record of classes, unless it stops with the signal of its own watch; and
watched for what depends on the record it does the same. -/
def Upholds (labels : Origins) (signal : Interrupt) {α : Type} (x : Eval α)
    (watched : Record → Eval α) (m : Machine) (births : Births)
    (ok : α → Machine → Births → Prop) : Prop :=
  Ensures x m
    (fun a m' => ∃ births', m.Outlives births m' births' ∧ m'.Rooted births' labels ∧
      ok a m' births' ∧ ∀ final, births'.Within final.births → watched final m = .ok a m')
    (fun e m' => e = signal ∨ ∃ births', m.Outlives births m' births' ∧ m'.Rooted births' labels ∧
      ∀ final, births'.Within final.births → watched final m = .error e m')

section Laws

variable {labels : Origins} {signal : Interrupt} {α β : Type} {x : Eval α} {xw : Record → Eval α}
  {m m' : Machine} {births : Births} {ok : α → Machine → Births → Prop}

namespace Upholds

theorem step (m' : Machine) {a : α} (hx : x m = .ok a m') (hsize : m.scopes.size ≤ m'.scopes.size)
    (hr : m'.Rooted births labels) (hok : ok a m' births) :
    Upholds labels signal x (fun _ => x) m births ok :=
  (ensures_of_eq_ok hx).mpr ⟨births, .of_size hsize, hr, hok, fun _ _ => hx⟩

theorem halt {e : Interrupt} (hx : x m = .error e m) (hr : m.Rooted births labels) :
    Upholds labels signal x (fun _ => x) m births ok := by
  rw [Upholds, Ensures, hx]
  exact .inr ⟨births, .refl, hr, fun _ _ => rfl⟩

theorem pure {a : α} (hr : m.Rooted births labels) (hok : ok a m births) :
    Upholds labels signal (Pure.pure a) (fun _ => Pure.pure a) m births ok :=
  step m rfl (Nat.le_refl _) hr hok

theorem throw {e : Interrupt} (hr : m.Rooted births labels) :
    Upholds labels signal (MonadExcept.throw e : Eval α) (fun _ => MonadExcept.throw e) m births ok :=
  halt rfl hr

/-- **Parts that follow one another** extend the record one after the other. -/
theorem bind {f : α → Eval β} {fw : Record → α → Eval β} {ok' : β → Machine → Births → Prop}
    (h : Upholds labels signal x xw m births ok)
    (hf : ∀ a m₁ births₁, m.Outlives births m₁ births₁ → m₁.Rooted births₁ labels →
      ok a m₁ births₁ → Upholds labels signal (f a) (fun final => fw final a) m₁ births₁ ok') :
    Upholds labels signal (x >>= f) (fun final => xw final >>= fw final) m births ok' := by
  refine Ensures.bind h (fun a m₁ _ h₁ => ?_) fun e m₁ h₁ => ?_
  · obtain ⟨births₁, ho₁, hr₁, ha, hw₁⟩ := h₁
    refine Ensures.mono (hf a m₁ births₁ ho₁ hr₁ ha) (fun b m₂ _ h₂ => ?_) fun e m₂ h₂ => ?_
    · obtain ⟨births₂, ho₂, hr₂, hb, hw₂⟩ := h₂
      exact ⟨births₂, ho₁.trans ho₂, hr₂, hb, fun final hfinal =>
        (bind_of_ok (hw₁ final ((ho₂.within hr₁).trans hfinal))).trans (hw₂ final hfinal)⟩
    · rcases h₂ with hstop | ⟨births₂, ho₂, hr₂, hw₂⟩
      · exact .inl hstop
      · exact .inr ⟨births₂, ho₁.trans ho₂, hr₂, fun final hfinal =>
          (bind_of_ok (hw₁ final ((ho₂.within hr₁).trans hfinal))).trans (hw₂ final hfinal)⟩
  · rcases h₁ with hstop | ⟨births₁, ho₁, hr₁, hw₁⟩
    · exact .inl hstop
    · exact .inr ⟨births₁, ho₁, hr₁, fun final hfinal => bind_of_error (hw₁ final hfinal)⟩

theorem map {f : α → β} {ok' : β → Machine → Births → Prop}
    (h : Upholds labels signal x xw m births ok)
    (hok : ∀ a m₁ births₁, ok a m₁ births₁ → ok' (f a) m₁ births₁) :
    Upholds labels signal (f <$> x) (fun final => f <$> xw final) m births ok' :=
  h.bind fun a m₁ births₁ _ hr ha => .pure hr (hok a m₁ births₁ ha)

theorem get {f : Machine → Eval β} {fw : Record → Machine → Eval β}
    {ok' : β → Machine → Births → Prop}
    (h : Upholds labels signal (f m) (fun final => fw final m) m births ok') :
    Upholds labels signal (MonadState.get >>= f) (fun final => MonadState.get >>= fw final) m births
      ok' := h

theorem within {k : ScopeId} (h : Upholds labels signal x xw { m with current := k } births ok)
    (hok : ∀ a m' births', ok a m' births' → ok a { m' with current := m.current } births') :
    Upholds labels signal (Eval.within k x) (fun final => Eval.within k (xw final)) m births ok := by
  unfold Upholds Ensures at h ⊢
  simp only [Eval.within]
  cases hx : x { m with current := k } with
  | ok a m' =>
    rw [hx] at h
    obtain ⟨births', ho, hr, ha, hw⟩ := h
    refine ⟨births', ⟨ho.size, ho.births⟩, hr.of_eq rfl rfl, hok a m' births' ha, fun final hfinal => ?_⟩
    rw [hw final hfinal]
  | error e m' =>
    rw [hx] at h
    rcases h with hstop | ⟨births', ho, hr, hw⟩
    · exact .inl hstop
    · refine .inr ⟨births', ⟨ho.size, ho.births⟩, hr.of_eq rfl rfl, fun final hfinal => ?_⟩
      rw [hw final hfinal]

theorem watched {w : Watch} {ws : Record → Watch} {a : Activity} (hsignal : w.signal = signal)
    (hr : m.Rooted births labels)
    (h : w.allowed a m → Upholds labels signal x xw m births ok)
    (ha : w.allowed a m → ∀ final, births.Within final.births → (ws final).allowed a m) :
    Upholds labels signal (Eval.watched w a x) (fun final => Eval.watched (ws final) a (xw final)) m
      births ok := by
  by_cases hw : w.allowed a m
  · have hboth {births' : Births} {m' : Machine} (ho : m.Outlives births m' births')
        {final : Record} (hfinal : births'.Within final.births) :
        Eval.watched (ws final) a (xw final) m = xw final m :=
      Eval.watched_of_allowed (ha hw final ((ho.within hr).trans hfinal))
    unfold Upholds Ensures
    rw [Eval.watched_of_allowed hw]
    refine Ensures.mono (h hw) (fun b m' _ h' => ?_) fun e m' h' => ?_
    · obtain ⟨births', ho, hr', hb, hsame⟩ := h'
      exact ⟨births', ho, hr', hb, fun final hfinal =>
        (hboth ho hfinal).trans (hsame final hfinal)⟩
    · rcases h' with hstop | ⟨births', ho, hr', hsame⟩
      · exact .inl hstop
      · exact .inr ⟨births', ho, hr', fun final hfinal =>
          (hboth ho hfinal).trans (hsame final hfinal)⟩
  · have hstop : Eval.watched w a x m = .error signal m := hsignal ▸ if_neg hw
    rw [Upholds, Ensures, hstop]
    exact .inl rfl

end Upholds

/-! ## Single steps -/

variable {v : Value} {name : String} {k : ScopeId}

theorem upholds_fail (hr : m.Rooted births labels) (problem : RuntimeProblem) (place : Token) :
    Upholds labels signal (Eval.fail problem place) (fun _ => Eval.fail problem place) m births ok :=
  .throw hr

theorem upholds_ofExcept (hr : m.Rooted births labels) (place : Token)
    (r : Except RuntimeProblem α) (hok : ∀ a, r = .ok a → ok a m births) :
    Upholds labels signal (Eval.ofExcept place r) (fun _ => Eval.ofExcept place r) m births ok := by
  cases r with
  | ok a => exact .pure hr (hok a rfl)
  | error problem => exact upholds_fail hr problem place

theorem upholds_modifyGet {f : Machine → α × Machine} (hr : m.Rooted births labels)
    (hs : (f m).2.scopes = m.scopes) (hf : (f m).2.fields = m.fields)
    (hok : ok (f m).1 (f m).2 births) :
    Upholds labels signal (modifyGet f) (fun _ => modifyGet f) m births ok :=
  .step _ rfl (hs ▸ Nat.le_refl _) (hr.of_eq hs hf) hok

theorem upholds_freshObject (hr : m.Rooted births labels) :
    Upholds labels signal Eval.freshObject (fun _ => Eval.freshObject) m births fun _ _ _ => True :=
  upholds_modifyGet hr rfl rfl trivial

theorem upholds_readClock (hr : m.Rooted births labels) :
    Upholds labels signal Eval.readClock (fun _ => Eval.readClock) m births fun v m' births' =>
      v.Rooted births' m' :=
  upholds_modifyGet hr rfl rfl trivial

theorem upholds_write (hr : m.Rooted births labels) (text : String) :
    Upholds labels signal (Eval.write text) (fun _ => Eval.write text) m births
      fun _ _ _ => True :=
  upholds_modifyGet hr rfl rfl trivial

theorem upholds_print (hr : m.Rooted births labels) (line : String) :
    Upholds labels signal (Eval.print line) (fun _ => Eval.print line) m births
      fun _ _ _ => True := by
  refine (upholds_write hr _).bind fun answer _ _ _ hr₁ _ => ?_
  cases answer with
  | none => exact .pure hr₁ trivial
  | some refusal => exact .throw hr₁

theorem upholds_define (hr : m.Rooted births labels) (hname : ∀ w : Keyword, name ≠ w.spelling)
    (hv : v.Rooted births m) :
    Upholds labels signal (Eval.define k name v) (fun _ => Eval.define k name v) m births
      fun _ _ _ => True :=
  .step (m.defined k name v) rfl (m.le_size_defined k name v) (hr.defined hname hv) trivial

theorem upholds_defineHere (hr : m.Rooted births labels) (hname : ∀ w : Keyword, name ≠ w.spelling)
    (hv : v.Rooted births m) :
    Upholds labels signal (Eval.defineHere name v) (fun _ => Eval.defineHere name v) m births
      fun _ _ _ => True := by
  unfold Eval.defineHere
  exact .get (upholds_define hr hname hv)

end Laws

end Lox
