import Lox.Proofs.Machine.ChronicleRun
import Lox.Proofs.Session.Legal

/-!
# The heap through the history of a session

Scopes, classes and instances outlive the submissions that made them. One set of annals tells of all
scopes that are ever opened in a history and of all classes that are ever made, and the heap grows
outward from every point of the history to every later one.

* `stopsIn_task`, `chronicles_task`: what holds of runs holds of tasks;
* `Session.outward_afterAll`: the heap grows from call to call;
* `Session.Grows`: the heap grows through a call, and the annals tell of it, `Session.upToDate_after`,
  `Session.grows_afterAll`: it does through a history;
* **`Session.heap_grows_outward`**: the heap grows outward only.
-/

namespace Lox

/-! ## Tasks -/

theorem Eval.StopsIn.leaves {R : Machine → Machine → Prop} (hR : Steady R) {α : Type} {x y : Eval α}
    (h : Eval.StopsIn R x y) (m : Machine) : R (x.leaves m) (y.leaves m) := by
  rcases h.stops m with heq | ⟨e, m₁, hx, hy⟩
  · have hsame : x.leaves m = y.leaves m := by rw [Eval.leaves, heq, Eval.leaves]
    exact hsame ▸ hR.refl _
  · have hstop : x.leaves m = m₁ := by rw [Eval.leaves, hx]
    exact hstop ▸ hy.leaves

namespace Task

theorem watchedAll_everything (signal : Interrupt) (fuel : Nat) (ss : List Stmt) :
    watchedAll (.everything signal) fuel ss = Session.executeAll fuel ss := by
  induction ss with
  | nil => rfl
  | cons s rest ih =>
    rw [watchedAll, Eval.watched_everything, (Eval.unwatched_runs signal fuel).2.1, ih,
      Session.executeAll]

/-- To watch a task for nothing makes no difference. -/
theorem watched_everything (signal : Interrupt) (task : Task) :
    task.watched (.everything signal) = task.perform := by
  cases task with
  | program fuel ss => rw [watched, watchedAll_everything, perform]
  | expression fuel e => rw [watched, (Eval.unwatched_runs signal fuel).1, perform]

end Task

section

variable {w w' : Watch} (hw : ∀ a m, w.allowed a m → w'.allowed a m)

include hw

theorem stopsIn_watchedAll (fuel : Nat) (ss : List Stmt) :
    Eval.StopsIn Machine.Outward (Task.watchedAll w fuel ss) (Task.watchedAll w' fuel ss) := by
  induction ss with
  | nil => exact (parallel_stopsIn steady_outward).pure ()
  | cons s rest ih =>
    have hstatement := (stopsIn_runs steady_outward hw fuel).2.1 s
    exact (parallel_stopsIn steady_outward).bind (hstatement.watched steady_outward hw _) fun _ => ih

/-- **The heap grows outward from every point of a task to every later one.** -/
theorem stopsIn_task (task : Task) :
    Eval.StopsIn Machine.Outward (task.watched w) (task.watched w') := by
  cases task with
  | program fuel ss =>
    exact (parallel_stopsIn steady_outward).bind (stopsIn_watchedAll hw fuel ss)
      fun _ => (parallel_stopsIn steady_outward).pure none
  | expression fuel e =>
    exact (parallel_stopsIn steady_outward).map some ((stopsIn_runs steady_outward hw fuel).1 e)

end

variable {annals : Annals} {m : Machine}

theorem chronicles_watchedAll (fuel : Nat) (ss : List Stmt) (hm : m.UpToDate annals) :
    Chronicles annals (Session.executeAll fuel ss)
      (fun final signal => Task.watchedAll (chronicle final signal) fuel ss) m fun _ _ _ => True := by
  induction ss generalizing m annals with
  | nil => exact .pure hm trivial
  | cons s rest ih =>
    have hnothing : annals.Tells m (.program fuel s) := fun _ _ _ hopens => hopens.elim
    have hstatement := ((chronicles_runs fuel).2.1 s hm).watched hnothing
      (fun _ _ _ _ hw hc => hc.mono hw (.refl _))
      fun final hfinal hends =>
        ⟨hm.toOnRecord.widen hfinal, trivial, hends, hnothing.widen hfinal⟩
    exact hstatement.bind fun _ _ _ _ _ hm₁ _ => ih hm₁

/-- A task keeps the annals, and to watch for what is in them makes no difference. -/
theorem chronicles_task (task : Task) (hm : m.UpToDate annals) :
    Chronicles annals task.perform (fun final signal => task.watched (chronicle final signal)) m
      fun _ _ _ => True := by
  cases task with
  | program fuel ss =>
    exact (chronicles_watchedAll fuel ss hm).bind fun _ _ _ _ _ hm₁ _ => .pure hm₁ trivial
  | expression fuel e => exact ((chronicles_runs fuel).1 e hm).map fun _ _ _ _ => trivial

theorem Task.upToDate_leaves (task : Task) (hm : m.UpToDate annals) :
    ∃ annals', annals.Within annals' ∧ (task.perform.leaves m).UpToDate annals' ∧
      ∀ final signal, annals'.Within final →
        task.watched (chronicle final signal) m = task.perform m := by
  have h := chronicles_task task hm
  cases hx : task.perform m with
  | ok a m' =>
    obtain ⟨annals', hw, -, hm', -, hsame⟩ := Ensures.ok_of_eq h hx
    exact ⟨annals', hw, by rwa [Eval.leaves, hx], hsame⟩
  | error e m' =>
    obtain ⟨annals', hw, -, hm', hsame⟩ := Ensures.halt_of_eq h hx
    exact ⟨annals', hw, by rwa [Eval.leaves, hx], hsame⟩

/-! ## Sessions -/

namespace Session

/-- In the beginning there are the globals, and nothing was opened or made. -/
theorem upToDate_start (clock : Nat → Float) : (start clock).machine.UpToDate .blank where
  current := size_start clock ▸ Nat.one_pos
  globals := size_start clock ▸ Nat.one_pos
  outermost := rfl
  inner := fun k hk hne => by
    rw [size_start] at hk
    exact absurd (Nat.lt_one_iff.mp hk) hne
  values := fun k name v hv => by
    rw [(own?_start hv).2]
    trivial
  fields := fun i b name v hb => by cases hb
  openings := fun _ _ => rfl
  classes := fun _ _ => rfl

/-- The heap grows outward through a call that runs a task, from its start to every point of the task
and from every point to every later one and to the end; and whatever begins and ends on the way is
what the annals say. -/
structure Grows (annals : Annals) (s : Session) (call : Call) (task : Task) : Prop where
  chronicled : ∀ signal, task.watched (chronicle annals signal) (s.learned task.tree) =
    task.perform (s.learned task.tree)
  begins : ∀ w, s.machine.Outward ((task.watched w).leaves (s.learned task.tree))
  goesOn : ∀ w w' : Watch, (∀ a m, w.allowed a m → w'.allowed a m) →
    ((task.watched w).leaves (s.learned task.tree)).Outward
      ((task.watched w').leaves (s.learned task.tree))
  ends : ∀ w, ((task.watched w).leaves (s.learned task.tree)).Outward (s.after call).machine

theorem outward_learned (s : Session) (ss : List Stmt) : s.machine.Outward (s.learned ss) :=
  .of_same rfl rfl rfl rfl

theorem Grows.of_chronicled {s : Session} {call : Call} {task : Task}
    (hlaunch : s.launch? call = some task)
    (h : ∀ signal, task.watched (chronicle annals signal) (s.learned task.tree) =
      task.perform (s.learned task.tree)) : s.Grows annals call task where
  chronicled := h
  begins := fun w =>
    (s.outward_learned _).trans ((stopsIn_task (fun _ _ h => h) task).keeps.leaves _)
  goesOn := fun w w' hw => (stopsIn_task hw task).leaves steady_outward _
  ends := fun w => by
    have hall : ∀ a m, w.allowed a m → (Watch.everything w.signal).allowed a m :=
      fun _ _ _ => trivial
    have hend := (stopsIn_task hall task).leaves steady_outward (s.learned task.tree)
    rw [Task.watched_everything] at hend
    rw [(after_of_launch hlaunch).machine]
    exact hend.trans (.of_same rfl rfl rfl rfl)

theorem outward_after (s : Session) (call : Call) : s.machine.Outward (s.after call).machine := by
  cases hlaunch : s.launch? call with
  | none =>
    obtain ⟨answers, hmachine⟩ := after_of_not_launch hlaunch
    rw [hmachine]
    exact .of_same rfl rfl rfl rfl
  | some task =>
    have hrun : Eval.Keeps Machine.Outward task.perform := by
      rw [← Task.watched_everything .outOfFuel task]
      exact (stopsIn_task (fun _ _ h => h) task).keeps
    rw [(after_of_launch hlaunch).machine]
    exact ((s.outward_learned _).trans (hrun.leaves _)).trans (.of_same rfl rfl rfl rfl)

theorem outward_afterAll (s : Session) (calls : List Call) :
    s.machine.Outward (s.afterAll calls).machine := by
  induction calls generalizing s with
  | nil => exact .refl _
  | cons call rest ih => exact (s.outward_after call).trans (ih (s.after call))

theorem upToDate_after {s : Session} (call : Call) (hm : s.machine.UpToDate annals) :
    ∃ annals', annals.Within annals' ∧ (s.after call).machine.UpToDate annals' ∧
      ∀ final task, annals'.Within final → s.launch? call = some task → s.Grows final call task := by
  cases hlaunch : s.launch? call with
  | none =>
    obtain ⟨answers, hmachine⟩ := after_of_not_launch hlaunch
    refine ⟨annals, .refl _, ?_, fun final task _ h => by cases h⟩
    rw [hmachine]
    exact hm.of_eq rfl rfl rfl (Nat.le_refl _) hm.current
  | some task =>
    have hlearned : (s.learned task.tree).UpToDate annals :=
      hm.of_eq rfl rfl rfl (Nat.le_refl _) hm.current
    obtain ⟨annals', hw, hm', hsame⟩ := task.upToDate_leaves hlearned
    refine ⟨annals', hw, ?_, fun final task' hfinal h => ?_⟩
    · rw [(after_of_launch hlaunch).machine]
      exact hm'.of_eq rfl rfl rfl (Nat.le_refl _) hm'.current
    · cases h
      exact .of_chronicled hlaunch fun signal => hsame final signal hfinal

theorem grows_afterAll {s : Session} (calls : List Call) (hm : s.machine.UpToDate annals) :
    ∃ final, annals.Within final ∧
      (∀ before later, calls = before ++ later → (s.afterAll before).machine.OnRecord final) ∧
      ∀ before call later task, calls = before ++ call :: later →
        (s.afterAll before).launch? call = some task →
          (s.afterAll before).Grows final call task := by
  induction calls generalizing s annals with
  | nil =>
    refine ⟨annals, .refl _, fun before later h => ?_, fun before call later task h => by simp at h⟩
    obtain ⟨rfl, -⟩ := List.append_eq_nil_iff.mp h.symm
    exact hm.toOnRecord
  | cons call rest ih =>
    obtain ⟨annals₁, hw₁, hm₁, hgrows⟩ := upToDate_after call hm
    obtain ⟨final, hw₂, hrecord, hrest⟩ := ih hm₁
    refine ⟨final, hw₁.trans hw₂, fun before later h => ?_, fun before call' later task h hlaunch => ?_⟩
    · cases before with
      | nil => exact hm.toOnRecord.widen (hw₁.trans hw₂)
      | cons first before =>
        cases h
        exact hrecord before later rfl
    · cases before with
      | nil =>
        cases h
        exact hgrows final task hw₂ hlaunch
      | cons first before =>
        cases h
        exact hrest before call' later task rfl hlaunch

/-- **The heap grows outward only.** For every history of a session one set of annals tells of all
scopes that are ever opened and of all classes that are ever made, and everything that can be
reached at any point of the history is in them and leads only to older scopes and classes. -/
theorem heap_grows_outward (clock : Nat → Float) (calls : List Call) :
    Steady Machine.Outward ∧ ∃ annals : Annals,
      (∀ before later, calls = before ++ later →
        ((start clock).afterAll before).machine.OnRecord annals ∧
        ((start clock).afterAll before).machine.Outward ((start clock).afterAll calls).machine) ∧
      (∀ before call later task, calls = before ++ call :: later →
        ((start clock).afterAll before).launch? call = some task →
          ((start clock).afterAll before).Grows annals call task) ∧
      (∀ m : Machine, m.OnRecord annals →
        (∀ k outer, m.scopes.parent? k = some outer → outer < k) ∧
        (∀ k < m.scopes.size, ∃ d ≤ k, m.scopes.ancestor k d = some m.globals) ∧
        ∀ c : ClassObject, c.OnRecord annals m →
          (∀ (m' : Machine) (c' : ClassObject), c'.OnRecord annals m' → c'.id = c.id → c' = c) ∧
          (c.lineage.Pairwise fun k parent => parent.id < k.id) ∧
          ∀ name, c.method? name = c.lineage.findSome? fun k => k.methods.get? name) ∧
      ∀ m m' a a' k outer outer' kind kind', Chronicled annals m a → Chronicled annals m' a' →
        Activity.Opens m a k outer kind → Activity.Opens m' a' k outer' kind' →
          m.scopes.size ≤ k ∧ a = a' ∧ m = m' ∧ outer = outer' := by
  obtain ⟨annals, -, hrecord, hgrows⟩ := grows_afterAll calls (upToDate_start clock)
  refine ⟨steady_outward, annals, fun before later h => ⟨hrecord before later h, ?_⟩, hgrows,
    fun m hm => ?_, fun m m' a a' k outer outer' kind kind' h h' hopens hopens' =>
      ⟨(h.opened k outer kind hopens).1, h.opens_once h' hopens hopens'⟩⟩
  · subst h
    rw [afterAll_append]
    exact outward_afterAll _ later
  · refine ⟨m.scopes.parent_lt, fun k hk => hm.chain hk, fun c hc => ?_⟩
    exact ⟨fun m' c' hc' hid => hc.eq_of_id hc' hid, ClassObject.OnRecord.pairwise_lineage c hc,
      fun name => c.method?_eq name⟩

end Session

end Lox
