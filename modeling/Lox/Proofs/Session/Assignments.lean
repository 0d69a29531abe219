import Lox.Proofs.Session.Replay

/-!
# Where assignments land

The distance of an assignment leads to the scope that declares its target. The resolver counts a
variable as declared in its own initializer already, where a run has not bound it yet: there, and
nowhere else, an assignment can miss.

* `Machine.holderOf_target?`: the scope that the distance of an assignment leads to;
* `Eval.assign_at`: an assignment writes in that scope if the scope binds the name, and fails if not;
* `Lands`: an assignment finds the binding of its target, `landing`: the watch for that;
* **`Session.assignments_land`**: every assignment whose distance is known lands, but for one in the
  initializer of the variable that it assigns to;
* `Session.misses_in_own_initializer`: one that does not.
-/

namespace Lox

variable {known : List (Site × Mark)} {o : Origins} {m m' : Machine}

/-- So many links out from the current scope lies the instance of the scope that declares the
target, and it binds the name, unless the assignment stands in the initializer of the variable
itself. -/
theorem Machine.holderOf_target? {p : Site} {name : String} {d : Nat}
    (hm : Mirrors m o m.current p.frames) (hd : p.target? name = some d) :
    ∃ k, m.scopes.ancestor m.current d = some k ∧ o[k]? = some (p.regions.drop d) ∧
      (p.opening ≠ some name → (m.scopes.own? k name).isSome = true) := by
  by_cases ho : p.opening = some name
  · rw [Site.target?, if_pos ho] at hd
    obtain rfl : 0 = d := Option.some.inj hd
    exact ⟨m.current, rfl, hm.origin, fun hne => absurd ho hne⟩
  · rw [Site.target?_eq ho] at hd
    obtain ⟨k, hk, horigin, hown⟩ := reaches_of_distance? hm hd
    exact ⟨k, hk, horigin, fun _ => hown⟩

theorem Eval.assign_at {target : Occurrence} {d : Nat} {k : ScopeId}
    (hd : m.distances[target.id]? = some d) (hk : m.scopes.ancestor m.current d = some k) (v : Value) :
    Eval.assign target v m =
      if (m.scopes.own? k target.name.lexeme).isSome then .ok () (m.defined k target.name.lexeme v)
      else .error (.failure (.problem (.lostBinding target.name.lexeme) target.name.position)) m := by
  have hholder : m.holder? target =
      if (m.scopes.own? k target.name.lexeme).isSome then some k else none := by
    rw [Machine.holder?, hd]
    exact (congrArg (Option.filter _) hk).trans (Option.filter_some ..)
  have hmissing : m.missing target = .lostBinding target.name.lexeme := by
    rw [Machine.missing, hd]
  rw [Eval.assign, Eval.locate, bind_assoc, get_bind, hholder, hmissing]
  by_cases hown : (m.scopes.own? k target.name.lexeme).isSome = true
  · rw [if_pos hown, if_pos hown]
    rfl
  · rw [if_neg hown, if_neg hown]
    rfl

/-- What runs on and comes back keeps the chain of the scope in which it stands. -/
theorem Machine.Resumes.kept {o' : Origins} (h : m.Resumes o m' o') : m.Kept m' :=
  ⟨h.size, h.parent, h.current, h.globals, h.distances⟩

/-- The distance of an assignment leads to the scope in which the text says that its target is
declared, and behind its value the assignment writes there. The labels name for every scope that is
ever opened what opened it and the scopes around it. -/
def Lands (sites : List (Site × Mark)) (labels : Origins) (m : Machine) (a : Activity) : Prop :=
  ∀ fuel target e d, a = .evaluate (fuel + 1) (.assign target e) →
    m.distances[target.id]? = some d →
      ∃ (p : Site) (holder : ScopeId), (p, .write target) ∈ sites ∧
        p.target? target.name.lexeme = some d ∧ m.scopes.ancestor m.current d = some holder ∧
        labels[holder]? = some (p.regions.drop d) ∧
        ∀ v m', Eval.evaluate fuel e m = .ok v m' →
          -- the scope is the same one, whatever the value did
          m'.scopes.ancestor m'.current d = some holder ∧
          (p.opening ≠ some target.name.lexeme →
            (m'.scopes.own? holder target.name.lexeme).isSome = true) ∧
          Eval.assign target v m' =
            if (m'.scopes.own? holder target.name.lexeme).isSome then
              .ok () (m'.defined holder target.name.lexeme v)
            else
              .error (.failure (.problem (.lostBinding target.name.lexeme) target.name.position)) m'

/-- Every assignment must land. -/
def landing (sites : List (Site × Mark)) (e : Ending) : Watch where
  allowed a m := Lands sites e.labels m a
  signal := e.signal

theorem permits_landing {sites : List (Site × Mark)} (hsub : known ⊆ sites) :
    Permits known (landing sites) := by
  rintro o final a m ho hb - fuel target e d rfl hd
  obtain ⟨hg, p, hm, hs⟩ := hb
  rw [Expr.sites, Expr.marks, Site.mark_cons_subset, Site.mark_cons_subset] at hs
  obtain ⟨hwrite, -, hvalue⟩ := hs
  have htarget : p.target? target.name.lexeme = some d := (hg.legal _ hwrite).symm.trans hd
  obtain ⟨holder, hholder, horigin, -⟩ := Machine.holderOf_target? hm htarget
  obtain ⟨hlt, horigin⟩ := List.getElem?_eq_some_iff.mp horigin
  refine ⟨p, holder, hsub hwrite, htarget, hholder, ?_, fun v m' hv => ?_⟩
  · rw [← horigin]
    exact List.prefix_iff_getElem?.mp ho holder hlt
  obtain ⟨o', -, -, hsafe⟩ := safe_evaluate permits_all fuel p e hg hm hvalue
  obtain ⟨-, hr, -⟩ := hsafe.ok_of_eq hv
  have hsame : m'.scopes.ancestor m'.current d = some holder := by
    rw [hr.current]
    exact hr.kept.ancestor hholder
  have hd' : m'.distances[target.id]? = some d := hr.distances ▸ hd
  refine ⟨hsame, fun hne => ?_, Eval.assign_at hd' hsame v⟩
  obtain ⟨k, hk, -, hown⟩ := Machine.holderOf_target? (hm.resumes hr) htarget
  cases hk.symm.trans hsame
  exact hown hne

namespace Session

/-- **An assignment lands unless it stands in the initializer of the variable that it assigns
to.** Its distance leads to the instance of the scope in which the text declares the target.
Inside the initializer, it lands exactly if an earlier submission bound the name. -/
theorem assignments_land (clock : Nat → Float) (calls : List Call) :
    ∃ labels : Origins, labels[(start clock).machine.globals]? = some [.top] ∧
      ∀ before call later task, calls = before ++ call :: later →
        ((start clock).afterAll before).launch? call = some task → ∀ signal,
          task.watched (landing ((start clock).sitesAll calls) ⟨labels, signal⟩)
              (((start clock).afterAll before).learned task.tree) =
            task.perform (((start clock).afterAll before).learned task.tree) :=
  exists_labels clock calls _ fun _ hsub => permits_landing hsub

/-- A variable is assigned to in its own initializer: the resolver reports nothing and gives the
assignment a distance, but the scope there binds nothing yet. -/
theorem misses_in_own_initializer :
    (resolve (parse "var a = (a = nil); print a;" 0).tree).complaints = [] ∧
      (resolve (parse "var a = (a = nil); print a;" 0).tree).distances[1]? = some 0 ∧
      ((start fun _ => 0).run "var a = (a = nil); print a;" 20).1.result = .runtimeError ∧
      ((start fun _ => 0).run "var a = (a = nil); print a;" 20).1.reports.map Report.diagnostic =
        [⟨.error, ⟨1, 9, 10⟩, "Undefined variable 'a'."⟩] :=
  ⟨by decide +kernel, by decide +kernel, by decide +kernel, by decide +kernel⟩

end Session

end Lox
