import Lox.Machine.Evaluate

/-!
# Watching a run

What holds at every point of a run is said by watching it: a watched run stops with a signal as
soon as an activity begins in a machine in which it is not allowed to. A run in which everything is
allowed whenever it begins is the same whether it is watched or not, whatever the signal.

* `Activity`: what a run is made of, `Watch`: what is allowed, and the signal;
* `watchedEvaluate`, `watchedExecute`, `watchedCall`: the rules of evaluation, watched;
* `Watch.everything`, `Eval.unwatched_runs`: to watch for nothing makes no difference.
-/

namespace Lox

/-- What a run is made of, with the depth that it may reach. -/
inductive Activity where
  | evaluate (fuel : Nat) (e : Expr)
  | execute (fuel : Nat) (s : Stmt)
  | call (fuel : Nat) (callee : Value) (arguments : List Value) (paren : Token)
  /-- A statement of the program itself. -/
  | program (fuel : Nat) (s : Stmt)

/-- In which machines an activity may begin, and what a run stops with that begins it elsewhere. -/
structure Watch where
  allowed : Activity → Machine → Prop
  signal : Interrupt

/-- Everything is allowed. -/
def Watch.everything (signal : Interrupt) : Watch := ⟨fun _ _ => True, signal⟩

namespace Eval

open Classical in
/-- An activity that stops at once where it may not begin. -/
noncomputable def watched {α : Type} (w : Watch) (a : Activity) (action : Eval α) : Eval α :=
  fun m => if w.allowed a m then action m else .error w.signal m

mutual

/-- The value of an expression, watched. -/
noncomputable def watchedEvaluate (w : Watch) : Nat → Expr → Eval Value
  | 0, _ => outOfFuel
  | fuel + 1, e =>
    watched w (.evaluate (fuel + 1) e) (evaluateRule (watchedEvaluate w fuel) (watchedCall w fuel) e)

/-- Run a statement, watched. -/
noncomputable def watchedExecute (w : Watch) : Nat → Stmt → Eval Completion
  | 0, _ => outOfFuel
  | fuel + 1, s =>
    watched w (.execute (fuel + 1) s)
      (executeRule (watchedEvaluate w fuel) (watchedExecute w fuel) fuel s)

/-- Call a value, watched. -/
noncomputable def watchedCall (w : Watch) : Nat → Value → List Value → Token → Eval Value
  | 0, _, _, _ => outOfFuel
  | fuel + 1, callee, arguments, paren =>
    watched w (.call (fuel + 1) callee arguments paren)
      (callRule (watchedExecute w fuel) callee arguments paren)

end

theorem watched_of_allowed {α : Type} {w : Watch} {a : Activity} {action : Eval α} {m : Machine}
    (h : w.allowed a m) : watched w a action m = action m :=
  if_pos h

theorem watched_everything {α : Type} (signal : Interrupt) (a : Activity) (action : Eval α) :
    watched (.everything signal) a action = action :=
  funext fun _ => if_pos trivial

/-- A run in which everything is allowed is what it is without a watch. -/
theorem unwatched_runs (signal : Interrupt) (fuel : Nat) :
    watchedEvaluate (.everything signal) fuel = evaluate fuel ∧
      watchedExecute (.everything signal) fuel = execute fuel ∧
      watchedCall (.everything signal) fuel = call fuel := by
  induction fuel with
  | zero => exact ⟨rfl, rfl, rfl⟩
  | succ fuel ih =>
    obtain ⟨heval, hrun, hcall⟩ := ih
    refine ⟨?_, ?_, ?_⟩
    · funext e
      rw [watchedEvaluate, watched_everything, heval, hcall, evaluate]
    · funext s
      rw [watchedExecute, watched_everything, heval, hrun, execute]
    · funext callee arguments paren
      rw [watchedCall, watched_everything, hrun, call]

end Eval

end Lox
