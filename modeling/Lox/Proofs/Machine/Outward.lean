import Lox.Proofs.Machine.Lineage
import Lox.Proofs.Machine.Parallel

/-!
# The heap grows outward

No run takes a scope away, moves one, or unbinds a name, and this holds from every point of a run to
every later one: a run that stops on the way leaves a machine from which the heap grows outward to
whatever the run leaves that goes on.

* `Machine.Outward`: what stays of the heap, **`steady_outward`**: every run keeps to it;
* `Eval.StopsIn`: an action does what another one does, or stops on the way;
* **`stopsIn_runs`**: of two watches the stricter one only stops a run earlier.
-/

namespace Lox

/-! ## What stays -/

/-- What stays of the heap: all scopes, each inside the scope in which it was opened, with the names
that they bind, and all numbers of objects and instances. -/
structure Machine.Outward (m m' : Machine) : Prop where
  size : m.scopes.size ≤ m'.scopes.size
  parent : ∀ k < m.scopes.size, m'.scopes.parent? k = m.scopes.parent? k
  bound : ∀ k name, (m.scopes.own? k name).isSome = true → (m'.scopes.own? k name).isSome = true
  objects : m.nextObject ≤ m'.nextObject
  instances : m.fields.size ≤ m'.fields.size
  globals : m'.globals = m.globals

namespace Machine.Outward

variable {m m₁ m₂ : Machine}

theorem refl (m : Machine) : m.Outward m :=
  ⟨Nat.le_refl _, fun _ _ => rfl, fun _ _ h => h, Nat.le_refl _, Nat.le_refl _, rfl⟩

theorem trans (h₁ : m.Outward m₁) (h₂ : m₁.Outward m₂) : m.Outward m₂ where
  size := Nat.le_trans h₁.size h₂.size
  parent := fun k hk => (h₂.parent k (Nat.lt_of_lt_of_le hk h₁.size)).trans (h₁.parent k hk)
  bound := fun k name h => h₂.bound k name (h₁.bound k name h)
  objects := Nat.le_trans h₁.objects h₂.objects
  instances := Nat.le_trans h₁.instances h₂.instances
  globals := h₂.globals.trans h₁.globals

theorem of_eq (hs : m₁.scopes = m.scopes) (hf : m.fields.size ≤ m₁.fields.size)
    (ho : m.nextObject ≤ m₁.nextObject) (hg : m₁.globals = m.globals) : m.Outward m₁ :=
  ⟨hs ▸ Nat.le_refl _, fun _ _ => hs ▸ rfl, fun _ _ h => hs ▸ h, ho, hf, hg⟩

theorem of_same (hs : m₁.scopes = m.scopes) (hf : m₁.fields = m.fields)
    (ho : m₁.nextObject = m.nextObject) (hg : m₁.globals = m.globals) : m.Outward m₁ :=
  of_eq hs (Nat.le_of_eq (congrArg Array.size hf.symm)) (Nat.le_of_eq ho.symm) hg

theorem opened (m : Machine) (parent : ScopeId) : m.Outward (m.opened parent) where
  size := m.le_size_opened parent
  parent := fun _ hk => Scopes.parent?_push _ _ hk
  bound := fun _ _ h => (Scopes.own?_push _ _ _ _).symm ▸ h
  objects := Nat.le_refl _
  instances := Nat.le_refl _
  globals := rfl

theorem defined (m : Machine) (k : ScopeId) (name : String) (v : Value) :
    m.Outward (m.defined k name v) := by
  rcases (Nat.lt_or_ge k m.scopes.size).symm with hk | hk
  · rw [Machine.defined_of_size_le hk]
    exact refl m
  · refine ⟨m.le_size_defined k name v, fun _ _ => Scopes.parent?_define _ _ _ _ _,
      fun k' name' h => ?_, Nat.le_refl _, Nat.le_refl _, rfl⟩
    rw [Machine.own?_defined hk]
    split
    · rfl
    · exact h

theorem instantiated (m : Machine) : m.Outward m.instantiated :=
  of_eq rfl (Nat.le_of_lt (Nat.lt_of_lt_of_eq (Nat.lt_succ_self _) (Array.size_push _).symm))
    (Nat.le_refl _) rfl

theorem set_field (m : Machine) (id : InstanceId) (name : String) (v : Value) :
    m.Outward { m with fields := m.fields.modify id (·.insert name v) } :=
  of_eq rfl (Nat.le_of_eq Array.size_modify.symm) (Nat.le_refl _) rfl

end Machine.Outward

/-- **No run takes a scope away, moves one or unbinds a name.** -/
theorem steady_outward : Steady Machine.Outward where
  refl := .refl
  trans := .trans
  within := fun _ h => ⟨h.size, h.parent, h.bound, h.objects, h.instances, h.globals⟩
  openScope := fun parent m => .opened m parent
  define := fun k name v m => .defined m k name v
  freshObject := fun _ => .of_eq rfl (Nat.le_refl _) (Nat.le_succ _) rfl
  freshInstance := fun _ m => .instantiated m
  setField := fun id name v m => .set_field m id name v
  write := fun _ _ => .of_same rfl rfl rfl rfl
  readClock := fun _ => .of_same rfl rfl rfl rfl

/-! ## From one point of a run to a later one -/

/-- `x` does what `y` does, or stops in a machine from which the relation leads to what `y` leaves. -/
structure Eval.StopsIn {α : Type} (R : Machine → Machine → Prop) (x y : Eval α) : Prop where
  keeps : y.Keeps R
  stops : ∀ m, x m = y m ∨
    ∃ e m₁, x m = .error e m₁ ∧ Ensures y m (fun _ m' => R m₁ m') fun _ m' => R m₁ m'

section

variable {R : Machine → Machine → Prop} (hR : Steady R) {α β : Type} {x y : Eval α}

include hR

namespace Eval.StopsIn

theorem bind {f g : α → Eval β} (h : StopsIn R x y) (hf : ∀ a, StopsIn R (f a) (g a)) :
    StopsIn R (x >>= f) (y >>= g) where
  keeps := hR.bind h.keeps fun a => (hf a).keeps
  stops := fun m => by
    rcases h.stops m with heq | ⟨e, m₁, hx, hy⟩
    · cases hy : y m with
      | ok a m₁ =>
        simp only [bind_of_ok (heq.trans hy), ensures_congr (bind_of_ok hy), bind_of_ok hy]
        exact (hf a).stops m₁
      | error e m₁ => exact .inl ((bind_of_error (heq.trans hy)).trans (bind_of_error hy).symm)
    · refine .inr ⟨e, m₁, bind_of_error hx, hy.bind (fun a m₂ _ h₂ => ?_) fun _ _ h₂ => h₂⟩
      exact ((hf a).keeps m₂).mono (fun _ _ _ => hR.trans h₂) fun _ _ => hR.trans h₂

theorem within (k : ScopeId) (h : StopsIn R x y) :
    StopsIn R (Eval.within k x) (Eval.within k y) where
  keeps := hR.inside h.keeps k
  stops := fun m => by
    rcases h.stops { m with current := k } with heq | ⟨e, m₁, hx, hy⟩
    · exact .inl (by simp only [Eval.within, heq])
    · -- the run that stops comes back to the current scope as well
      have hback {m₂ : Machine} (h₂ : R m₁ m₂) :
          R { m₁ with current := m.current } { m₂ with current := m.current } :=
        hR.within (m := { m₁ with current := m.current }) m₁.current h₂
      refine .inr ⟨e, { m₁ with current := m.current }, by simp only [Eval.within, hx], ?_⟩
      unfold Ensures at hy
      unfold Ensures Eval.within
      cases hrun : y { m with current := k } with
      | ok a m₂ =>
        rw [hrun] at hy
        exact hback hy
      | error e' m₂ =>
        rw [hrun] at hy
        exact hback hy

end Eval.StopsIn

theorem parallel_stopsIn : Parallel (Eval.StopsIn R) where
  same := fun hx => ⟨hx hR, fun _ => .inl rfl⟩
  bind := .bind hR
  within := .within hR

variable {w w' : Watch} (hw : ∀ a m, w.allowed a m → w'.allowed a m)

include hw

/-- A watch that allows less stops where the other one goes on. -/
theorem Eval.StopsIn.watched (h : Eval.StopsIn R x y) (a : Activity) :
    Eval.StopsIn R (Eval.watched w a x) (Eval.watched w' a y) := by
  have hkeeps : (Eval.watched w' a y).Keeps R := by
    intro m
    by_cases ha : w'.allowed a m
    · rw [Ensures, Eval.watched_of_allowed ha]
      exact h.keeps m
    · have hstop : Eval.watched w' a y m = .error w'.signal m := if_neg ha
      rw [Ensures, hstop]
      exact hR.refl m
  refine ⟨hkeeps, fun m => ?_⟩
  by_cases ha : w.allowed a m
  · have hboth : Eval.watched w' a y m = y m := Eval.watched_of_allowed (hw a m ha)
    simp only [Eval.watched_of_allowed ha, ensures_congr hboth, hboth]
    exact h.stops m
  · exact .inr ⟨w.signal, m, if_neg ha, hkeeps m⟩

/-- **Of two watches the stricter one only stops a run earlier**, and whatever every elementary action
respects leads from there to what the other run leaves. -/
theorem stopsIn_runs (fuel : Nat) :
    (∀ e, Eval.StopsIn R (Eval.watchedEvaluate w fuel e) (Eval.watchedEvaluate w' fuel e)) ∧
      (∀ s, Eval.StopsIn R (Eval.watchedExecute w fuel s) (Eval.watchedExecute w' fuel s)) ∧
      ∀ callee arguments paren, Eval.StopsIn R (Eval.watchedCall w fuel callee arguments paren)
        (Eval.watchedCall w' fuel callee arguments paren) := by
  have hparallel := parallel_stopsIn hR
  induction fuel with
  | zero =>
    exact ⟨fun _ => hparallel.same fun hR => hR.throw _, fun _ => hparallel.same fun hR => hR.throw _,
      fun _ _ _ => hparallel.same fun hR => hR.throw _⟩
  | succ fuel ih =>
    obtain ⟨heval, hrun, hcall⟩ := ih
    exact ⟨fun e => .watched hR hw (hparallel.evaluateRule heval hcall e) _,
      fun s => .watched hR hw (hparallel.executeRule hrun heval
        (fun hc hb hs => hparallel.loop hc hb hs fuel) s) _,
      fun callee arguments paren => .watched hR hw (hparallel.callRule hrun callee arguments paren) _⟩

end

end Lox
