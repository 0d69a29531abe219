import Lox.Proofs.Machine.UpholdsRun
import Lox.Proofs.Session.Legal

/-!
# `super` through the history of a session

Classes and instances outlive the submissions that made them. The record of the classes that were
made is kept through a whole history, and at every point of it `super` leads to the superclass of the
class that was made for the method.

* `Session.nested_sitesAll`: the scopes of classes nest in all programs of a history;
* `upholds_task`, `Task.upheld`: a task extends the record;
* `Session.rooted_start`, `Session.watched_record`: the record through a history;
* **`Session.super_stays_lexical`**: `super` is lexical and keeps `this`.
-/

namespace Lox

variable {sites : List (Site × Mark)} {labels : Origins} {births : Births} {m : Machine}

/-! ## Tasks -/

theorem upholds_watchedAll {signal : Interrupt} (hn : AllNested sites) (fuel : Nat) (ss : List Stmt)
    (hr : m.Rooted births labels) :
    Upholds labels signal (Task.watchedAll (beginning sites ⟨labels, signal⟩) fuel ss)
      (fun final => Task.watchedAll (dispatch sites labels final) fuel ss) m births
      fun _ _ _ => True := by
  induction ss generalizing m births with
  | nil => exact .pure hr trivial
  | cons s rest ih =>
    have hstatement : Upholds labels signal
        (Eval.watched (beginning sites ⟨labels, signal⟩) (.program fuel s)
          (Eval.watchedExecute (beginning sites ⟨labels, signal⟩) fuel s))
        (fun final => Eval.watched (dispatch sites labels final) (.program fuel s)
          (Eval.watchedExecute (dispatch sites labels final) fuel s)) m births
        fun c m' births' => c.Rooted births' m' :=
      .watched rfl hr (fun _ => upholds_execute hn fuel s hr) fun hl final hw => hl.dispatched hn hr hw nofun
    exact hstatement.bind fun _ _ _ _ hr₁ _ => ih hr₁

theorem upholds_task (signal : Interrupt) (hn : AllNested sites) (task : Task)
    (hr : m.Rooted births labels) :
    Upholds labels signal (task.watched (beginning sites ⟨labels, signal⟩))
      (fun final => task.watched (dispatch sites labels final)) m births fun _ _ _ => True := by
  cases task with
  | program fuel ss =>
    exact (upholds_watchedAll hn fuel ss hr).bind fun _ _ _ _ hr₁ _ => .pure hr₁ trivial
  | expression fuel e => exact (upholds_evaluate hn fuel e hr).map fun _ _ _ _ => trivial

theorem Interrupt.exists_ne (e : Interrupt) : ∃ signal, e ≠ signal := by
  cases e with
  | failure f =>
    refine ⟨.outOfFuel, fun h => ?_⟩
    cases h
  | outOfFuel =>
    refine ⟨.failure (.output ""), fun h => ?_⟩
    cases h

theorem Task.upheld (hn : AllNested sites) {task : Task} (hr : m.Rooted births labels)
    (hlawful : ∀ signal, task.watched (beginning sites ⟨labels, signal⟩) m = task.perform m) :
    ∃ births', births.Within births' ∧ (task.perform.leaves m).Rooted births' labels ∧
      ∀ final : Record, births'.Within final.births →
        task.watched (dispatch sites labels final) m = task.perform m := by
  cases hx : task.perform m with
  | ok a m' =>
    obtain ⟨births', ho, hr', -, hw⟩ :=
      (upholds_task .outOfFuel hn task hr).ok_of_eq ((hlawful _).trans hx)
    exact ⟨births', ho.within hr, by rwa [Eval.leaves, hx], hw⟩
  | error e m' =>
    -- the signal of the watch is chosen to be none of the program's own
    obtain ⟨signal, hne⟩ := e.exists_ne
    rcases (upholds_task signal hn task hr).halt_of_eq ((hlawful _).trans hx) with
      hstop | ⟨births', ho, hr', hw⟩
    · exact absurd hstop hne
    · exact ⟨births', ho.within hr, by rwa [Eval.leaves, hx], hw⟩

/-! ## Sessions -/

namespace Session

theorem nested_sites (s : Session) (call : Call) : AllNested (s.sites call) := by
  rw [sites]
  cases hlaunch : s.launch? call with
  | none => exact .nil
  | some task =>
    exact Stmt.nested_sitesAll .start task.tree (after_of_launch hlaunch).regular

/-- The scopes of classes nest in all programs that calls run. -/
theorem nested_sitesAll (s : Session) (calls : List Call) : AllNested (s.sitesAll calls) := by
  induction calls generalizing s with
  | nil => exact .nil
  | cons call rest ih => exact .append (s.nested_sites call) (ih (s.after call))

theorem rooted_start (clock : Nat → Float) (labels : Origins) :
    (start clock).machine.Rooted .none labels := by
  refine ⟨fun k name v hv => ?_, fun i b name v hb => ?_, fun k v hv => ?_, fun k v hv => ?_, nofun⟩
  · rw [(own?_start hv).2]
    trivial
  · cases hb
  · exact absurd (own?_start hv).1 (by decide)
  · exact absurd (own?_start hv).1 (by decide)

theorem rooted_after {s : Session} (hn : AllNested sites) (call : Call)
    (hr : s.machine.Rooted births labels)
    (hlawful : ∀ task, s.launch? call = some task → ∀ signal,
      task.watched (beginning sites ⟨labels, signal⟩) (s.learned task.tree) =
        task.perform (s.learned task.tree)) :
    ∃ births', births.Within births' ∧ (s.after call).machine.Rooted births' labels ∧
      ∀ task, s.launch? call = some task → ∀ final : Record, births'.Within final.births →
        task.watched (dispatch sites labels final) (s.learned task.tree) =
          task.perform (s.learned task.tree) := by
  cases hlaunch : s.launch? call with
  | none =>
    obtain ⟨answers, hmachine⟩ := after_of_not_launch hlaunch
    exact ⟨births, fun _ _ h => h, hmachine ▸ hr.of_eq rfl rfl, nofun⟩
  | some task =>
    have hlearned : (s.learned task.tree).Rooted births labels := hr.of_eq rfl rfl
    obtain ⟨births', hwithin, hr', hw⟩ := Task.upheld hn hlearned (hlawful task hlaunch)
    refine ⟨births', hwithin, ?_, fun task' htask' => ?_⟩
    · rw [(after_of_launch hlaunch).machine]
      exact hr'.of_eq rfl rfl
    · cases htask'
      exact hw

/-- The record of classes through several calls. -/
theorem watched_record {s : Session} (hn : AllNested sites) (calls : List Call)
    (hr : s.machine.Rooted births labels)
    (hlawful : ∀ before call later task, calls = before ++ call :: later →
      (s.afterAll before).launch? call = some task → ∀ signal,
        task.watched (beginning sites ⟨labels, signal⟩) ((s.afterAll before).learned task.tree) =
          task.perform ((s.afterAll before).learned task.tree)) :
    ∃ births', births.Within births' ∧ ∀ before call later task, calls = before ++ call :: later →
      (s.afterAll before).launch? call = some task → ∀ final : Record, births'.Within final.births →
        task.watched (dispatch sites labels final) ((s.afterAll before).learned task.tree) =
          task.perform ((s.afterAll before).learned task.tree) := by
  induction calls generalizing s births with
  | nil => exact ⟨births, fun _ _ h => h, fun before call later task hcalls => by simp at hcalls⟩
  | cons call rest ih =>
    obtain ⟨births₁, hwithin₁, hr₁, hw₁⟩ := rooted_after hn call hr (hlawful [] call rest · rfl)
    obtain ⟨births₂, hwithin₂, hw₂⟩ := ih hr₁ fun before call' later task hcalls =>
      hlawful (call :: before) call' later task (congrArg (call :: ·) hcalls)
    refine ⟨births₂, hwithin₁.trans hwithin₂, fun before call' later task hcalls hlaunch final hfinal => ?_⟩
    cases before with
    | nil =>
      cases hcalls
      exact hw₁ task hlaunch final (hwithin₂.trans hfinal)
    | cons first before =>
      cases hcalls
      exact hw₂ before call' later task rfl hlaunch final hfinal

/-- **`super` is lexical and keeps `this`.** At every point of the history of every program
without static errors, `super` leads to the superclass of the class that was made together with
the method in which it stands, and binds what it finds to what `this` is there. -/
theorem super_stays_lexical (clock : Nat → Float) (calls : List Call) :
    ∃ (labels : Origins) (births : Births),
      labels[(start clock).machine.globals]? = some [.top] ∧
      ∀ before call later task, calls = before ++ call :: later →
        ((start clock).afterAll before).launch? call = some task → ∀ signal,
          task.watched (dispatch ((start clock).sitesAll calls) labels ⟨births, signal⟩)
              (((start clock).afterAll before).learned task.tree) =
            task.perform (((start clock).afterAll before).learned task.tree) := by
  obtain ⟨labels, htop, hlawful⟩ := exists_labels clock calls
    (beginning ((start clock).sitesAll calls)) fun _ hsub => permits_beginning hsub
  obtain ⟨births, -, hw⟩ := watched_record (nested_sitesAll (start clock) calls) calls
    (rooted_start clock labels) hlawful
  exact ⟨labels, births, htop, fun before call later task hcalls hlaunch signal =>
    hw before call later task hcalls hlaunch ⟨births, signal⟩ fun _ _ h => h⟩

end Session

end Lox
