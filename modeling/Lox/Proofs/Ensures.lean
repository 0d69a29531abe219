/-!
# What an action guarantees

The grammar rules and the rules of evaluation are actions on a state that yield a value or stop
early. What such an action does is said by a condition on its value and the state behind it, and
another one for the case that it stops.

* `Ensures`: both conditions, for an action that starts in a given state;
* `ensures_bind`, …: what the parts of an action guarantee makes up what the action guarantees;
* `Ensures.mono`, `Ensures.bind`: weakening conditions and going on from where a part leads.
-/

namespace Lox

variable {ε σ α β : Type}

/-- From the state `s` the action yields a value that meets `ok`, or stops in a way that meets
`halt`. -/
def Ensures (x : EStateM ε σ α) (s : σ) (ok : α → σ → Prop) (halt : ε → σ → Prop) : Prop :=
  match x s with
  | .ok a t => ok a t
  | .error e t => halt e t

section Laws

variable {s : σ} {ok : α → σ → Prop} {halt : ε → σ → Prop}

@[simp] theorem ensures_pure {a : α} : Ensures (pure a) s ok halt ↔ ok a s := Iff.rfl

@[simp] theorem ensures_get {ok : σ → σ → Prop} :
    Ensures (get : EStateM ε σ σ) s ok halt ↔ ok s s := Iff.rfl

/-- **What the parts of an action guarantee makes up what the action guarantees.** -/
theorem ensures_bind {x : EStateM ε σ α} {f : α → EStateM ε σ β} {ok : β → σ → Prop} :
    Ensures (x >>= f) s ok halt ↔ Ensures x s (fun a t => Ensures (f a) t ok halt) halt := by
  change Ensures (EStateM.bind x f) s ok halt ↔ _
  unfold Ensures EStateM.bind
  cases x s <;> rfl

theorem ensures_bind_of_forall {x : EStateM ε σ α} {f : α → EStateM ε σ β} {ok : β → σ → Prop}
    (hf : ∀ a t, Ensures (f a) t ok fun _ _ => True) : Ensures (x >>= f) s ok fun _ _ => True := by
  rw [ensures_bind]
  unfold Ensures
  cases x s with
  | ok a t => exact hf a t
  | error e t => trivial

theorem ensures_map {x : EStateM ε σ α} {f : α → β} {ok : β → σ → Prop} :
    Ensures (f <$> x) s ok halt ↔ Ensures x s (fun a t => ok (f a) t) halt := by
  change Ensures (EStateM.map f x) s ok halt ↔ _
  unfold Ensures EStateM.map
  cases x s <;> rfl

theorem ensures_ite_bind {p : Prop} [Decidable p] {x y : EStateM ε σ α} {f : α → EStateM ε σ β}
    {ok : β → σ → Prop} :
    Ensures (if p then x >>= f else y >>= f) s ok halt ↔
      Ensures ((if p then x else y) >>= f) s ok halt := by
  split <;> rfl

theorem ensures_of_eq_ok {x : EStateM ε σ α} {a : α} {t : σ} (h : x s = .ok a t) :
    Ensures x s ok halt ↔ ok a t := by
  rw [Ensures, h]

end Laws

theorem ensures_congr {x y : EStateM ε σ α} {s t : σ} {ok : α → σ → Prop} {halt : ε → σ → Prop}
    (h : x s = y t) : Ensures x s ok halt ↔ Ensures y t ok halt := by
  unfold Ensures
  rw [h]

theorem bind_of_ok {x : EStateM ε σ α} {f : α → EStateM ε σ β} {s t : σ} {a : α}
    (h : x s = .ok a t) : (x >>= f) s = f a t := by
  show EStateM.bind x f s = _
  rw [EStateM.bind, h]

theorem bind_of_error {x : EStateM ε σ α} {f : α → EStateM ε σ β} {s t : σ} {e : ε}
    (h : x s = .error e t) : (x >>= f) s = .error e t := by
  show EStateM.bind x f s = _
  rw [EStateM.bind, h]

theorem get_bind {f : σ → EStateM ε σ β} {s : σ} : ((get : EStateM ε σ σ) >>= f) s = f s s := rfl

namespace Ensures

variable {x : EStateM ε σ α} {s t : σ} {ok ok' : α → σ → Prop} {halt halt' : ε → σ → Prop}

theorem mono (h : Ensures x s ok halt) (hok : ∀ a t, x s = .ok a t → ok a t → ok' a t)
    (hhalt : ∀ e t, halt e t → halt' e t) : Ensures x s ok' halt' := by
  unfold Ensures at h ⊢
  cases hx : x s with
  | ok a t =>
    rw [hx] at h
    exact hok a t hx h
  | error e t =>
    rw [hx] at h
    exact hhalt e t h

theorem bind {f : α → EStateM ε σ β} {ok' : β → σ → Prop} (h : Ensures x s ok halt)
    (hf : ∀ a t, x s = .ok a t → ok a t → Ensures (f a) t ok' halt')
    (hhalt : ∀ e t, halt e t → halt' e t) : Ensures (x >>= f) s ok' halt' :=
  ensures_bind.mpr (h.mono hf hhalt)

theorem ok_of_eq {a : α} (h : Ensures x s ok halt) (hx : x s = .ok a t) : ok a t :=
  (ensures_of_eq_ok hx).mp h

theorem halt_of_eq {e : ε} (h : Ensures x s ok halt) (hx : x s = .error e t) : halt e t := by
  rw [Ensures, hx] at h
  exact h

end Ensures

end Lox
