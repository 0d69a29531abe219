import Lox.Proofs.Machine.SafeRun
import Lox.Proofs.Session.Launch
import Lox.Proofs.Session.Numbers

/-!
# Legal sessions

Between two submissions everything that can be reached in a session stands in scopes that mirror
the sites of the programs that were run, and the known distances agree with these sites.

* `Session.sites`, `Session.sitesAll`: the marks of the programs that calls run;
* `Session.Legal`: what holds of a session between two calls, `Session.legal_start`;
* `Session.Legal.launch`, `safe_task`: a call runs a program in a good machine, and safely;
* **`Session.Legal.after`**: a call leaves a legal session;
* **`Session.exists_labels`**: what a watch permits in good machines it permits at every point of
  the history of a session.
-/

namespace Lox

variable {known known' : List (Site × Mark)} {o : Origins} {m : Machine}

/-! ## Learning distances -/

/-- The machine with another table of distances. -/
def Machine.relearned (m : Machine) (distances : Distances) : Machine :=
  { m with distances := distances }

section Learning

variable {distances : Distances}

theorem Holds.relearned {k : ScopeId} {f : Frame} (h : Holds m k f) :
    Holds (m.relearned distances) k f := ⟨h.names, h.super⟩

theorem Mirrors.relearned {k : ScopeId} {frames : List Frame} (h : Mirrors m o k frames) :
    Mirrors (m.relearned distances) o k frames := by
  induction h with
  | top ho hf => exact Mirrors.top (m := m.relearned distances) ho hf.relearned
  | inner hp _ ho hf ih => exact .inner hp ih ho hf.relearned

theorem Closure.Good.relearned {c : Closure} (h : c.Good known o m) (hsub : known ⊆ known') :
    c.Good known' o (m.relearned distances) := by
  obtain ⟨kind, p, hk, hm, hs⟩ := h
  exact ⟨kind, p, hk, hm.relearned, List.Subset.trans hs hsub⟩

theorem ClassObject.Good.relearned {c : ClassObject} (h : c.Good known o m)
    (hsub : known ⊆ known') : c.Good known' o (m.relearned distances) := by
  intro name f hf
  obtain ⟨kind, p, cls, hk, hm, hmem, hs⟩ := h name f hf
  exact ⟨kind, p, cls, hk, hm.relearned, hmem, List.Subset.trans hs hsub⟩

theorem Value.Good.relearned {v : Value} (h : v.Good known o m) (hsub : known ⊆ known') :
    v.Good known' o (m.relearned distances) := by
  cases v with
  | function id c => exact Closure.Good.relearned h hsub
  | «class» c => exact ClassObject.Good.relearned h hsub
  | «instance» id c => exact ClassObject.Good.relearned h hsub
  | _ => trivial

theorem Machine.Good.relearned (h : m.Good known o) (hsub : known ⊆ known')
    (hlegal : ∀ x ∈ known', x.2.Legal distances x.1) :
    (m.relearned distances).Good known' o where
  origins := h.origins
  values := fun k name v hv => (h.values k name v hv).relearned hsub
  fields := fun i b name v hb hv => (h.fields i b name v hb hv).relearned hsub
  legal := hlegal

end Learning

/-! ## Safe tasks -/

section Tasks

variable {watch : Ending → Watch} {p : Site}

theorem safe_executeAll (hw : Permits known watch) (fuel : Nat) (ss : List Stmt)
    (hg : m.Good known o) (hm : Mirrors m o m.current p.frames) (hs : Stmt.sitesAll p ss ⊆ known)
    (hf : p.function = .none) (hl : p.loopDepth = 0) :
    Safe known (Session.executeAll fuel ss) (fun final => Task.watchedAll (watch final) fuel ss) m o
      fun _ _ _ => True := by
  induction ss generalizing m o p with
  | nil => exact .pure hg trivial
  | cons s rest ih =>
    rw [Stmt.sitesAll, List.append_subset] at hs
    have hrun := safe_execute hw fuel p s hg hm hs.1
    have hprogram : Safe known (Eval.execute fuel s)
        (fun final => Eval.watched (watch final) (.program fuel s)
          (Eval.watchedExecute (watch final) fuel s)) m o fun c m' o' =>
            c.Fits known p m' o' ∧ Mirrors m' o' m'.current (p.after s).frames :=
      (hrun.with_origins fun _ _ _ _ _ h => h.elim).permitted (a := .program fuel s) hw
        ⟨hg, p, hm, hs.1, hf, hl⟩
    have hbehind := Site.behind_after (p := p) s
    exact hprogram.bind fun _ m₁ o₁ hg₁ _ hc => ih hg₁ hc.2 hs.2 (hbehind.function.trans hf)
      (hbehind.loopDepth.trans hl)

/-- **A task is run safely, whatever is watched.** -/
theorem safe_task (hw : Permits known watch) (task : Task) (hg : m.Good known o)
    (hm : Mirrors m o m.current Site.start.frames) (hs : programSites task.tree ⊆ known) :
    Safe known task.perform (fun final => task.watched (watch final)) m o fun _ _ _ => True := by
  cases task with
  | program fuel ss =>
    exact (safe_executeAll hw fuel ss hg hm hs rfl rfl).bind fun _ _ _ hg₁ _ _ => .pure hg₁ trivial
  | expression fuel e =>
    have he : e.sites .start ⊆ known := fun x hx => hs (List.mem_append_left _
      (List.mem_cons_of_mem _ hx))
    exact (safe_evaluate hw fuel .start e hg hm he).map fun _ _ _ _ _ _ => trivial

end Tasks

/-! ## Sessions -/

namespace Session

/-- The marks of the program that a call runs. -/
def sites (s : Session) (call : Call) : List (Site × Mark) :=
  ((s.launch? call).map fun task => programSites task.tree).getD []

/-- The marks of the programs that several calls run. -/
def sitesAll (s : Session) : List Call → List (Site × Mark)
  | [] => []
  | call :: rest => s.sites call ++ (s.after call).sitesAll rest

/-- Everything that can be reached is good, the session stands at the top level, and whatever
distances are learned for new occurrences, the old ones agree with their sites. -/
structure Legal (s : Session) (known : List (Site × Mark)) (o : Origins) : Prop where
  good : s.machine.Good known o
  current : s.machine.current = s.machine.globals
  top : o[s.machine.globals]? = some [.top]
  legal : ∀ distances : Distances, (∀ id < s.nextId, distances[id]? = s.machine.distances[id]?) →
    ∀ x ∈ known, x.2.Legal distances x.1
  fresh : s.Fresh

theorem scopes_start (clock : Nat → Float) : (start clock).machine.scopes =
    (Scopes.empty.push none).2.define 0 Native.clock.name (.native .clock) := rfl

theorem size_start (clock : Nat → Float) : (start clock).machine.scopes.size = 1 := by
  rw [scopes_start, Scopes.size_define, Scopes.size_push]
  rfl

theorem own?_start {clock : Nat → Float} {k : ScopeId} {name : String} {v : Value}
    (hv : (start clock).machine.scopes.own? k name = some v) :
    name = Native.clock.name ∧ v = .native .clock := by
  have hlt : 0 < (Scopes.empty.push none : ScopeId × Scopes Value).2.size := by
    rw [Scopes.size_push]
    exact Nat.succ_pos _
  rw [scopes_start, Scopes.own?_define _ hlt] at hv
  split at hv
  · rename_i hsame
    exact ⟨hsame.2.symm, (Option.some.inj hv).symm⟩
  · rw [Scopes.own?_push] at hv
    cases hv

theorem good_start (clock : Nat → Float) : (start clock).machine.Good [] [[.top]] where
  origins := (size_start clock).symm
  values := by
    intro k name v hv
    rw [(own?_start hv).2]
    trivial
  fields := fun i b name v hb => by cases hb
  legal := fun _ h => absurd h List.not_mem_nil

theorem legal_start (clock : Nat → Float) : (start clock).Legal [] [[.top]] where
  good := good_start clock
  current := rfl
  top := rfl
  legal := fun _ _ _ h => absurd h List.not_mem_nil
  fresh := fresh_start clock

variable {s : Session} {call : Call} {task : Task}

namespace Launched

variable (hl : s.Launched call task)

include hl

theorem regular : ∀ t ∈ task.tree, t.Regular := by
  rw [hl.tree]
  cases call with
  | run source fuel => exact regular_parse source s.nextId
  | evaluate source fuel =>
    intro t ht
    obtain ⟨e, he, rfl⟩ := List.mem_map.mp ht
    exact .expression (regular_parseExpression source s.nextId e (Option.mem_toList.mp he))
  | setPrinter answers => exact fun _ h => absurd h List.not_mem_nil

theorem numbered : Numbered s.nextId (s.after call).nextId (Stmt.idsAll task.tree) :=
  hl.tree ▸ (numbered_ids s call).2

theorem surroundings : (s.learned task.tree).SameSurroundings (s.after call).machine := by
  have hsteady : task.perform.Keeps Machine.SameSurroundings := by
    cases task with
    | program fuel ss =>
      exact steady_surroundings.bind (steady_executeAll steady_surroundings fuel ss) fun _ =>
        steady_surroundings.pure _
    | expression fuel e => exact steady_surroundings.map _ (steady_surroundings.evaluate fuel e)
  have hleaves := hsteady.leaves (s.learned task.tree)
  rw [hl.machine]
  exact ⟨hleaves.current, hleaves.globals, hleaves.distances, hleaves.clock⟩

theorem distances :
    (s.after call).machine.distances = s.machine.distances ∪ (resolve task.tree).distances :=
  hl.surroundings.distances

end Launched

namespace Legal

variable (h : s.Legal known o)

include h

theorem mirrors : Mirrors s.machine o s.machine.current Site.start.frames := by
  rw [h.current]
  exact .top h.top ⟨nofun, nofun⟩

/-- The old sites and those of a program that was launched agree with the distances that are known
behind it. -/
theorem legal_launched (hl : s.Launched call task) {distances : Distances}
    (hd : ∀ id < (s.after call).nextId,
      distances[id]? = (s.machine.distances ∪ (resolve task.tree).distances)[id]?) :
    ∀ x ∈ known ++ programSites task.tree, x.2.Legal distances x.1 := by
  have hnumbered := hl.numbered
  have hle := (numbered_ids s call).1
  intro x hx
  rcases List.mem_append.mp hx with hx | hx
  · refine h.legal distances (fun id hid => ?_) x hx
    have hnew : (resolve task.tree).distances[id]? = none :=
      distances_of_resolve _ fun hmem => Nat.not_le_of_lt hid (hnumbered.first_le id hmem)
    rw [hd id (Nat.lt_of_lt_of_le hid hle), Std.TreeMap.getElem?_union, hnew, Option.none_or]
  · refine legal_of_resolve hl.regular hnumbered.nodup hl.noError (fun id hid => ?_) x hx
    rw [hd id (hnumbered.lt_next id hid), Std.TreeMap.getElem?_union,
      h.fresh id (hnumbered.first_le id hid), Option.or_none]

/-- **A program is launched in a good machine.** -/
theorem launch (hl : s.Launched call task) :
    (s.learned task.tree).Good (known ++ programSites task.tree) o :=
  h.good.relearned (List.subset_append_left _ _) (h.legal_launched hl fun _ _ => rfl)

/-- A machine in which a program ended is the machine of a legal session. -/
theorem behind (hl : s.Launched call task) {m' : Machine} {o' : Origins}
    (hm' : task.perform.leaves (s.learned task.tree) = m')
    (hg : m'.Good (known ++ programSites task.tree) o')
    (hr : (s.learned task.tree).Resumes o m' o') :
    (s.after call).Legal (known ++ programSites task.tree) o' := by
  have hmachine : (s.after call).machine = m'.clearOutput := hm' ▸ hl.machine
  refine ⟨?_, ?_, ?_, fun distances hd => ?_, h.fresh.after call⟩
  · rw [hmachine]
    exact hg.of_eq rfl rfl rfl rfl
  · rw [hmachine]
    exact hr.current.trans (h.current.trans hr.globals.symm)
  · rw [hmachine]
    show o'[m'.globals]? = _
    rw [hr.globals]
    exact hr.toExtends.origin h.top
  · refine h.legal_launched hl fun id hid => ?_
    rw [hd id hid, hl.distances]

/-- **A call leaves a legal session, and watching what it runs makes no difference.** -/
theorem after {watch : Ending → Watch} (call : Call)
    (hw : Permits (known ++ s.sites call) watch) :
    ∃ o', o <+: o' ∧ (s.after call).Legal (known ++ s.sites call) o' ∧
      ∀ task, s.launch? call = some task → ∀ final, o' <+: final.labels →
        task.watched (watch final) (s.learned task.tree) =
          task.perform (s.learned task.tree) := by
  cases hlaunch : s.launch? call with
  | none =>
    obtain ⟨answers, hmachine⟩ := after_of_not_launch hlaunch
    have hsites : s.sites call = [] := by rw [sites, hlaunch]; rfl
    rw [hsites, List.append_nil]
    refine ⟨o, List.prefix_rfl, ⟨?_, ?_, ?_, fun distances hd => ?_, h.fresh.after call⟩, nofun⟩
    · rw [hmachine]
      exact h.good.of_eq rfl rfl rfl rfl
    · rw [hmachine]
      exact h.current
    · rw [hmachine]
      exact h.top
    · refine h.legal distances fun id hid => ?_
      rw [hd id (Nat.lt_of_lt_of_le hid (numbered_ids s call).1), hmachine]
  | some task =>
    have hl := after_of_launch hlaunch
    have hsites : s.sites call = programSites task.tree := by rw [sites, hlaunch]; rfl
    rw [hsites] at hw ⊢
    obtain ⟨o', ⟨-, horigins⟩, hwatched, hsafe⟩ := (safe_task hw task (h.launch hl)
      h.mirrors.relearned (List.subset_append_right _ _)).origins
    refine ⟨o', horigins, ?_, ?_⟩
    · cases hx : task.perform (s.learned task.tree) with
      | ok a m' =>
        obtain ⟨hg, hr, -⟩ := hsafe.ok_of_eq hx
        exact h.behind hl (by rw [Eval.leaves, hx]) hg hr
      | error e m' =>
        obtain ⟨hg, hr⟩ := hsafe.halt_of_eq hx
        exact h.behind hl (by rw [Eval.leaves, hx]) hg hr
    · intro task' htask'
      cases htask'
      exact hwatched

/-- What a watch permits in good machines it permits throughout several calls. -/
theorem watched_calls {watch : Ending → Watch} (calls : List Call)
    (hw : ∀ known' ⊆ known ++ s.sitesAll calls, Permits known' watch) :
    ∃ o', o <+: o' ∧ ∀ before call later task, calls = before ++ call :: later →
      (s.afterAll before).launch? call = some task → ∀ final, o' <+: final.labels →
        task.watched (watch final) ((s.afterAll before).learned task.tree) =
          task.perform ((s.afterAll before).learned task.tree) := by
  induction calls generalizing s known o with
  | nil => exact ⟨o, List.prefix_rfl, fun before call later task hcalls => by simp at hcalls⟩
  | cons call rest ih =>
    obtain ⟨o₁, ho₁, h₁, hwatched₁⟩ := h.after call (hw _ (by
      rw [sitesAll, ← List.append_assoc]
      exact List.subset_append_left _ _))
    obtain ⟨o₂, ho₂, hwatched₂⟩ := ih h₁ fun known' hsub => hw known' (by
      rwa [sitesAll, ← List.append_assoc])
    refine ⟨o₂, ho₁.trans ho₂, fun before call' later task hcalls hlaunch final hfinal => ?_⟩
    cases before with
    | nil =>
      cases hcalls
      exact hwatched₁ task hlaunch final (ho₂.trans hfinal)
    | cons first before =>
      cases hcalls
      exact hwatched₂ before call' later task rfl hlaunch final hfinal

end Legal

/-- **What a watch permits in good machines it permits at every point of the history of a
session.** -/
theorem exists_labels (clock : Nat → Float) (calls : List Call) (watch : Ending → Watch)
    (hw : ∀ known ⊆ (start clock).sitesAll calls, Permits known watch) :
    ∃ labels : Origins, labels[(start clock).machine.globals]? = some [.top] ∧
      ∀ before call later task, calls = before ++ call :: later →
        ((start clock).afterAll before).launch? call = some task → ∀ signal,
          task.watched (watch ⟨labels, signal⟩) (((start clock).afterAll before).learned task.tree) =
            task.perform (((start clock).afterAll before).learned task.tree) := by
  obtain ⟨labels, hprefix, hwatched⟩ := (legal_start clock).watched_calls calls hw
  refine ⟨labels, ?_, fun before call later task hcalls hlaunch signal =>
    hwatched before call later task hcalls hlaunch ⟨labels, signal⟩ List.prefix_rfl⟩
  exact List.prefix_iff_getElem?.mp hprefix 0 (by decide)

end Session

end Lox
