import Lox.Proofs.Session.Legal

/-!
# Where `return`, `break` and `continue` end

How a statement ended is a value that travels outward through blocks, branches, loops and calls.
Nothing in the evaluation keeps a stray one from being taken for a normal end; that there is none is
what the static rules are for.

* `Stmt.isLoop`, `Value.RunsBody`: loops, and the body that a call runs;
* `Disciplined`: a program, a body and a loop end as they may, `discipline`: the watch for that;
* `Eval.loop_of_break`, `Eval.loop_of_continue`, `Eval.loop_ends`: a loop consumes what its body
  ends with;
* **`Session.control_stays_inside`**: no `return`, `break` or `continue` ever leaves its owner.
-/

namespace Lox

variable {known : List (Site × Mark)} {o : Origins} {m : Machine}

/-! ## Loops -/

/-- The statement is a loop. -/
def Stmt.isLoop : Stmt → Bool
  | .whileLoop _ _ | .forLoop _ _ _ _ => true
  | _ => false

namespace Eval

section

variable {condition : Eval Bool} {body : Eval Completion} {step : Eval Unit} {m₁ m₂ : Machine}
  {fuel : Nat}

/-- A `break` of the body ends the loop around it, and that loop ends normally. -/
theorem loop_of_break (hc : condition m = .ok true m₁) (hb : body m₁ = .ok .break m₂) :
    loop condition body step (fuel + 1) m = .ok .normal m₂ := by
  rw [loop, bind_of_ok hc, if_pos rfl, bind_of_ok hb]
  rfl

/-- A `continue` of the body goes on with the loop around it. -/
theorem loop_of_continue (hc : condition m = .ok true m₁) (hb : body m₁ = .ok .continue m₂) :
    loop condition body step (fuel + 1) m =
      (step >>= fun _ => loop condition body step fuel) m₂ := by
  rw [loop, bind_of_ok hc, if_pos rfl, bind_of_ok hb]

theorem loop_ends (m : Machine) :
    Ensures (loop condition body step fuel) m (fun ended _ => ended.LeavesFunction)
      fun _ _ => True := by
  induction fuel generalizing m with
  | zero => trivial
  | succ fuel ih =>
    refine ensures_bind_of_forall fun goesOn m₁ => ?_
    cases goesOn with
    | false => trivial
    | true =>
      refine ensures_bind_of_forall fun ended m₂ => ?_
      cases ended with
      | normal => exact ensures_bind_of_forall fun _ m₃ => ih m₃
      | «continue» => exact ensures_bind_of_forall fun _ m₃ => ih m₃
      | «break» => trivial
      | «return» v => trivial

end

/-- The value of an action does not depend on where the action runs. -/
theorem ensures_within {α : Type} {x : Eval α} {P : α → Prop} {k : ScopeId} {m : Machine}
    (h : ∀ m, Ensures x m (fun a _ => P a) fun _ _ => True) :
    Ensures (within k x) m (fun a _ => P a) fun _ _ => True := by
  have hm := h { m with current := k }
  unfold Ensures within at *
  cases hx : x { m with current := k } with
  | ok a m' =>
    rw [hx] at hm
    exact hm
  | error e m' => trivial

theorem execute_loop_ends {s : Stmt} (hs : s.isLoop = true) (fuel : Nat) (m : Machine) :
    Ensures (execute fuel s) m (fun ended _ => ended.LeavesFunction) fun _ _ => True := by
  cases fuel with
  | zero => trivial
  | succ fuel =>
    cases s with
    | whileLoop condition body => exact loop_ends m
    | forLoop initializer condition increment body =>
      refine ensures_bind_of_forall fun m₁ m₂ => ensures_bind_of_forall fun scope m₃ => ?_
      refine ensures_within fun m₄ => ?_
      cases initializer with
      | none => exact loop_ends m₄
      | some s => exact ensures_bind_of_forall fun _ m₅ => loop_ends m₅
    | _ => cases hs

end Eval

/-! ## Bodies -/

/-- The body that a call runs, and the machine in which it begins: an initializer begins behind the
new instance, bound to it. -/
inductive Value.RunsBody (m : Machine) : Value → List Value → Closure → Machine → Prop where
  | function {id c arguments} : arguments.length = c.arity →
      RunsBody m (.function id c) arguments c m
  | initializer {k c arguments} : arguments.length = k.arity → k.initializer? = some c →
      RunsBody m (.class k) arguments { c with scope := m.scopes.size }
        (m.instantiated.bound c (.instance m.fields.size k))

/-- Programs, bodies of functions and loops end as they may. -/
structure Disciplined (m : Machine) (a : Activity) : Prop where
  /-- A statement of the program itself ends normally. -/
  program : ∀ fuel s, a = .program fuel s → ∀ ended m',
    Eval.execute fuel s m = .ok ended m' → ended = .normal
  /-- A body ends normally or with a `return`. -/
  body : ∀ fuel callee arguments paren, a = .call (fuel + 1) callee arguments paren →
    ∀ c m₁, callee.RunsBody m arguments c m₁ → ∀ ended m',
      Eval.runBody (Eval.execute fuel) c arguments m₁ = .ok ended m' → ended.LeavesFunction
  /-- A loop ends normally or with a `return`. -/
  loop : ∀ fuel s, a = .execute fuel s → s.isLoop = true → ∀ ended m',
    Eval.execute fuel s m = .ok ended m' → ended.LeavesFunction

/-- Every activity must be disciplined. -/
def discipline (e : Ending) : Watch where
  allowed a m := Disciplined m a
  signal := e.signal

theorem permits_all : Permits known fun e => ⟨fun _ _ => True, e.signal⟩ :=
  fun _ _ _ _ _ _ _ => trivial

/-- The body that a call runs is good and has an argument for each parameter. -/
theorem Value.RunsBody.good {callee : Value} {arguments : List Value} {c : Closure} {m₁ : Machine}
    (h : callee.RunsBody m arguments c m₁) (hg : m.Good known o) (hcallee : callee.Good known o m)
    (hargs : ∀ v ∈ arguments, v.Good known o m) :
    ∃ o₁, m₁.Good known o₁ ∧ c.Good known o₁ m₁ ∧ arguments.length = c.arity ∧
      ∀ v ∈ arguments, v.Good known o₁ m₁ := by
  cases h with
  | function hlen => exact ⟨o, hg, hcallee, hlen, hargs⟩
  | @initializer k c arguments hlen hi =>
    have harity : arguments.length = c.arity := by
      rw [hlen, ClassObject.arity, hi]
      rfl
    obtain ⟨o₁, -, -, he₁⟩ := safe_freshInstance hg hcallee
    obtain ⟨hg₁, hr₁, hthis⟩ := he₁.ok_of_eq (Eval.freshInstance_eq k m)
    have hk₁ := ClassObject.Good.extends hcallee hr₁.toExtends
    obtain ⟨o₂, -, -, he₂⟩ := safe_bind hg₁ (hk₁ _ _ hi) hthis
    obtain ⟨hg₂, hr₂, hc, -⟩ := he₂.ok_of_eq (Eval.bind_eq c _ _)
    exact ⟨o₂, hg₂, hc, harity, fun v hv => (hargs v hv).extends (hr₁.trans hr₂).toExtends⟩

/-- What begins in a good machine is disciplined. -/
theorem permits_discipline : Permits known discipline := by
  intro o final a m _ hb _
  refine ⟨?_, ?_, ?_⟩
  · rintro fuel s rfl ended m' hx
    obtain ⟨hg, p, hm, hs, hfunction, hloop⟩ := hb
    obtain ⟨o', -, -, he⟩ := safe_execute permits_all fuel p s hg hm hs
    obtain ⟨-, -, hfits, -⟩ := he.ok_of_eq hx
    cases ended with
    | normal => rfl
    | «return» v => exact absurd hfunction hfits.2
    | «break» => exact absurd hloop hfits
    | «continue» => exact absurd hloop hfits
  · rintro fuel callee arguments paren rfl c m₁ hbody ended m' hx
    obtain ⟨hg, hcallee, hargs⟩ := hb
    obtain ⟨o₁, hg₁, hc, hlen, hargs₁⟩ := hbody.good hg hcallee hargs
    obtain ⟨o', -, -, he⟩ := safe_runBody (safe_execute permits_all fuel) hg₁ hc hlen hargs₁
    exact (he.ok_of_eq hx).2.2.1
  · rintro fuel s rfl hs ended m' hx
    exact (Eval.execute_loop_ends hs fuel m).ok_of_eq hx

/-- **No `return`, `break` or `continue` ever leaves its owner.** At every point of the history of
a session the statements of a program end normally, and the bodies of functions normally or with a
`return`; a `break` or `continue` is consumed by its loop. -/
theorem Session.control_stays_inside (clock : Nat → Float) (calls : List Call) :
    (∀ before call later task, calls = before ++ call :: later →
      ((start clock).afterAll before).launch? call = some task → ∀ signal,
        task.watched (discipline ⟨[], signal⟩) (((start clock).afterAll before).learned task.tree) =
          task.perform (((start clock).afterAll before).learned task.tree)) ∧
    ∀ (condition : Eval Bool) (body : Eval Completion) (step : Eval Unit) (fuel : Nat)
      (m m₁ m₂ : Machine), condition m = .ok true m₁ →
        (body m₁ = .ok .break m₂ →
          Eval.loop condition body step (fuel + 1) m = .ok .normal m₂) ∧
        (body m₁ = .ok .continue m₂ →
          Eval.loop condition body step (fuel + 1) m =
            (step >>= fun _ => Eval.loop condition body step fuel) m₂) := by
  obtain ⟨labels, -, h⟩ := exists_labels clock calls discipline fun _ _ =>
    permits_discipline
  exact ⟨fun before call later task hcalls hlaunch signal =>
      h before call later task hcalls hlaunch signal,
    fun _ _ _ _ _ _ _ hc => ⟨Eval.loop_of_break hc, Eval.loop_of_continue hc⟩⟩

end Lox
