import Lox.Proofs.Session.Legal

/-!
# The place of a run

A run enters scopes and leaves them in many ways: at the end of a block, with a `return` or `break`,
or with a failure far inside an argument of a call. Wherever it ends, it stands where it began.

* `Session.place_after`, `Session.place_afterAll`: the scope in which a session stands, and its globals;
* **`Session.place_restored`**: no expression, statement, row of statements or call moves the machine,
  however it ends, and between submissions a session stands at the top level.
-/

namespace Lox.Session

theorem place_after (s : Session) (call : Call) :
    (s.after call).machine.current = s.machine.current ∧
      (s.after call).machine.globals = s.machine.globals := by
  cases hlaunch : s.launch? call with
  | none =>
    obtain ⟨answers, hmachine⟩ := after_of_not_launch hlaunch
    rw [hmachine]
    exact ⟨rfl, rfl⟩
  | some task =>
    have hsame := (after_of_launch hlaunch).surroundings
    exact ⟨hsame.current, hsame.globals⟩

theorem place_afterAll (s : Session) (calls : List Call) :
    (s.afterAll calls).machine.current = s.machine.current ∧
      (s.afterAll calls).machine.globals = s.machine.globals := by
  induction calls generalizing s with
  | nil => exact ⟨rfl, rfl⟩
  | cons call rest ih =>
    obtain ⟨hcurrent, hglobals⟩ := ih (s.after call)
    obtain ⟨hcurrent', hglobals'⟩ := s.place_after call
    exact ⟨hcurrent.trans hcurrent', hglobals.trans hglobals'⟩

/-- The globals are the first scope. -/
theorem globals_afterAll (clock : Nat → Float) (calls : List Call) :
    ((start clock).afterAll calls).machine.globals = 0 :=
  ((start clock).place_afterAll calls).2

/-- **The current scope is always restored.** From whatever machine something is run, and however
it ends, also with a line that the printer refuses: the machine behind stands in the same scope,
with the same globals and distances. -/
theorem place_restored :
    (∀ fuel e, (Eval.evaluate fuel e).Keeps Machine.SameSurroundings) ∧
      (∀ fuel s, (Eval.execute fuel s).Keeps Machine.SameSurroundings) ∧
      (∀ fuel ss scope,
        (Eval.within scope (Eval.runAll (Eval.execute fuel) ss)).Keeps Machine.SameSurroundings) ∧
      (∀ fuel callee arguments paren,
        (Eval.call fuel callee arguments paren).Keeps Machine.SameSurroundings) ∧
      ∀ clock calls, ((start clock).afterAll calls).machine.current =
          ((start clock).afterAll calls).machine.globals ∧
        ((start clock).afterAll calls).machine.globals = (start clock).machine.globals := by
  have hsteady := steady_surroundings
  refine ⟨hsteady.evaluate, hsteady.execute, fun fuel ss scope => ?_, hsteady.call,
    fun clock calls => ?_⟩
  · exact hsteady.inside (hsteady.runAll (hsteady.execute fuel) ss) scope
  · obtain ⟨hcurrent, hglobals⟩ := (start clock).place_afterAll calls
    exact ⟨hcurrent.trans hglobals.symm, hglobals⟩

end Lox.Session
