import Lox.Proofs.Binding.Joined
import Lox.Proofs.Machine.FollowRun
import Lox.Proofs.Session.Alignment
import Lox.Proofs.Session.Discipline
import Lox.Proofs.Session.Place

/-!
# Relocated tasks

What a call sets going in a legal session, the relocated text sets going in the replica of the
machine, as long as the table of distances there leads from every known mark to what it stands for.

* `Replica.Finds.of_reached`: a table that reaches a mark finds the binding of its occurrence;
* `Replica.permits_watch`: nothing ever begins where the two tables disagree;
* `Task.relocate`, `follows_task`: the task of the relocated text follows the task;
* `Outcome.ofResult`: how far a run came;
* **`Session.Legal.replay`**: the relocated task comes as far, and leaves the replica of the machine
  that the task leaves.
-/

namespace Lox

variable {known : List (Site × Mark)} {o : Origins} {m : Machine} {g : Replica}

/-! ## Tables that reach the known marks -/

/-- **A table that reaches a mark finds the binding of its occurrence** where the scopes mirror the
site of the mark. -/
theorem Replica.Finds.of_reached {p : Site} {use : Occurrence} {found : Option Nat}
    (hm : Mirrors m o m.current p.frames) (hlegal : m.distances[use.id]? = found)
    (h : g.distances[use.id]? = found ∨
      found = none ∧ g.distances[use.id]? = some (p.frames.length - 1)) : g.Finds m use := by
  obtain h | ⟨hnone, h⟩ := h
  · exact .inl (h.trans hlegal.symm)
  · exact .inr ⟨hlegal.trans hnone, _, h, hm.ancestor_globals⟩

/-- Nothing ever begins where the tables disagree. -/
theorem Replica.permits_watch (h : ∀ x ∈ known, x.2.Reached g.distances x.1) :
    Permits known fun final => g.watch final.signal := by
  intro o final a m _ hb _ _
  have hlegal := hb.good.legal
  have reads {use : Occurrence} (hread : a.Reads use) : g.Finds m use := by
    obtain ⟨p, hm, hmem⟩ := hread.site hb
    exact .of_reached hm (hlegal _ hmem) (h _ hmem)
  cases a with
  | evaluate fuel e =>
    cases e with
    | «variable» use => exact reads .variable
    | this keyword => exact reads .this
    | assign target value =>
      obtain ⟨-, p, hm, hs⟩ := hb
      have hmem : (p, Mark.write target) ∈ known :=
        hs (by simp [Expr.sites, Site.mark, Expr.marks])
      exact .of_reached hm (hlegal _ hmem) (h _ hmem)
    | super keyword method =>
      obtain ⟨-, p, hm, hs⟩ := hb
      have hmem : (p, Mark.super keyword) ∈ known :=
        hs (by simp [Expr.sites, Site.mark, Expr.marks])
      exact (h _ hmem).trans (hlegal _ hmem).reached.symm
    | _ => trivial
  | execute fuel s =>
    cases s with
    | «class» c =>
      obtain ⟨name, superclass, methods, span⟩ := c
      rintro use rfl
      exact reads .superclass
    | _ => trivial
  | call => trivial
  | program => trivial

/-! ## Tasks -/

/-- The task of the relocated text. -/
def Task.relocate (r : Relocation) : Task → Task
  | .program fuel ss => .program fuel (Stmt.relocateAll r ss)
  | .expression fuel e => .expression fuel (e.relocate r)

theorem follows_watchedAll (g : Replica) (signal : Interrupt) (fuel : Nat) (ss : List Stmt) :
    Follows g signal id (Task.watchedAll (g.watch signal) fuel ss)
      (Session.executeAll fuel (Stmt.relocateAll g.places ss)) m := by
  induction ss generalizing m with
  | nil => exact .pure rfl
  | cons s rest ih =>
    have hrun : Follows g signal (Completion.relocate g.places)
        (Eval.watched (g.watch signal) (.program fuel s) (Eval.watchedExecute (g.watch signal) fuel s))
        (Eval.execute fuel (s.relocate g.places)) m :=
      .watched fun _ => (follows_runs g signal fuel).2.1 s m
    exact hrun.bind fun _ _ _ => ih

theorem follows_task (g : Replica) (signal : Interrupt) (task : Task) :
    Follows g signal (Option.map (Value.relocate g.places)) (task.watched (g.watch signal))
      (task.relocate g.places).perform m := by
  cases task with
  | program fuel ss => exact (follows_watchedAll g signal fuel ss).bind fun _ _ _ => .pure rfl
  | expression fuel e => exact ((follows_runs g signal fuel).1 e m).map fun _ => rfl

/-! ## How far a run came -/

/-- How far a run came that ended like this. -/
def Outcome.ofResult {α : Type} : EStateM.Result Interrupt Machine α → Outcome
  | .ok _ _ => .completed
  | .error (.failure _) _ => .runtimeError
  | .error .outOfFuel _ => .outOfFuel

/-- Where a watch makes no difference, the relocated action comes as far as the action. -/
theorem Follows.replay {α : Type} {image : α → α} {watched : Interrupt → Eval α} {x y : Eval α}
    (h : ∀ signal, Follows g signal image (watched signal) y m) (hx : ∀ signal, watched signal m = x m)
    (hg : m.globals = 0) :
    Outcome.ofResult (y (m.replica g)) = Outcome.ofResult (x m) ∧
      y.leaves (m.replica g) = (x.leaves m).replica g := by
  unfold Eval.leaves
  cases hr : x m with
  | ok a m' =>
    obtain ⟨-, hy⟩ := (h .outOfFuel hg).ok_of_eq ((hx _).trans hr)
    rw [hy]
    exact ⟨rfl, rfl⟩
  | error e m' =>
    -- the run itself never stops with every signal
    obtain ⟨signal, hne⟩ : ∃ signal, e ≠ signal := by
      cases e with
      | failure f => exact ⟨.outOfFuel, nofun⟩
      | outOfFuel => exact ⟨.failure (.output ""), nofun⟩
    obtain he | ⟨e', halike, hy⟩ := (h signal hg).halt_of_eq ((hx signal).trans hr)
    · exact absurd he hne
    · rw [hy]
      cases halike <;> exact ⟨rfl, rfl⟩

/-! ## Sessions -/

namespace Session

variable {s : Session} {call : Call} {task : Task}

theorem exists_legal (clock : Nat → Float) (calls : List Call) :
    ∃ known o, ((start clock).afterAll calls).Legal known o := by
  have hsteps {s : Session} {known : List (Site × Mark)} {o : Origins} (h : s.Legal known o) :
      ∃ known o, (s.afterAll calls).Legal known o := by
    induction calls generalizing s known o with
    | nil => exact ⟨known, o, h⟩
    | cons call rest ih =>
      obtain ⟨o', -, h', -⟩ := h.after call permits_all
      exact ih h'
  exact hsteps (legal_start clock)

/-- **The relocated task comes as far as the task, and leaves the replica of the machine that the
task leaves**, if the table of the replica reaches all marks that are known then. -/
theorem Legal.replay (h : s.Legal known o) (hlaunch : s.launch? call = some task) (g : Replica)
    (hreached : ∀ x ∈ known ++ programSites task.tree, x.2.Reached g.distances x.1)
    (hglobals : s.machine.globals = 0) :
    Outcome.ofResult ((task.relocate g.places).perform ((s.learned task.tree).replica g)) =
        Outcome.ofResult (task.perform (s.learned task.tree)) ∧
      (task.relocate g.places).perform.leaves ((s.learned task.tree).replica g) =
        (task.perform.leaves (s.learned task.tree)).replica g := by
  have hsites : s.sites call = programSites task.tree := by
    rw [sites, hlaunch]
    rfl
  obtain ⟨o', -, -, hwatched⟩ := h.after call (g.permits_watch (hsites.symm ▸ hreached))
  exact Follows.replay (fun signal => follows_task g signal task)
    (fun signal => hwatched task hlaunch ⟨o', signal⟩ List.prefix_rfl) hglobals

end Session

end Lox
