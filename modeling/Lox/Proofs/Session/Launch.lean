import Lox.Proofs.Machine.Watch
import Lox.Proofs.Session.Calls

/-!
# What a call sets going

* `Task`: a program or an expression that runs, watched or not;
* `Session.launch?`: what a call sets going, nothing if its text has an error;
* **`Session.after_of_launch`**: the session behind a call is the one in which its task ran;
* `Session.launch?_run`: a program without a static error is set going.
-/

namespace Lox

/-- What a call sets going. -/
inductive Task where
  | program (fuel : Nat) (ss : List Stmt)
  | expression (fuel : Nat) (e : Expr)

namespace Task

/-- The program that a task is. -/
def tree : Task → List Stmt
  | .program _ ss => ss
  | .expression _ e => [.expression e]

/-- Run a task; only an expression has a value. -/
def perform : Task → Eval (Option Value)
  | .program fuel ss => do
    Session.executeAll fuel ss
    return none
  | .expression fuel e => some <$> Eval.evaluate fuel e

/-- Run the statements of a program one after the other, watched. -/
noncomputable def watchedAll (w : Watch) (fuel : Nat) : List Stmt → Eval Unit
  | [] => pure ()
  | s :: rest => do
    let _ ← Eval.watched w (.program fuel s) (Eval.watchedExecute w fuel s)
    watchedAll w fuel rest

/-- Run a task, watched. -/
noncomputable def watched (w : Watch) : Task → Eval (Option Value)
  | .program fuel ss => do
    watchedAll w fuel ss
    return none
  | .expression fuel e => some <$> Eval.watchedEvaluate w fuel e

end Task

namespace Session

/-- What a call sets going: nothing if its text has an error. -/
def launch? (s : Session) : Call → Option Task
  | .run source fuel =>
    let p := parse source s.nextId
    if p.clean && !(resolve p.tree).hasError then some (.program fuel p.tree) else none
  | .evaluate source fuel =>
    let p := parseExpression source s.nextId
    p.tree.bind fun e =>
      if p.clean && !(resolve [.expression e]).hasError then some (.expression fuel e) else none
  | .setPrinter _ => none

variable {s : Session} {call : Call} {task : Task}

theorem launch?_run {source : String} {fuel : Nat}
    (h : (s.run source fuel).1.result ≠ .staticError) :
    s.launch? (.run source fuel) = some (.program fuel (parse source s.nextId).tree) := by
  unfold launch?
  cases hclean : (parse source s.nextId).clean with
  | false => exact absurd (by rw [run_of_unclean hclean]) h
  | true =>
    cases herr : (resolve (parse source s.nextId).tree).hasError with
    | true => exact absurd (by rw [run_of_error hclean herr]) h
    | false => simp [hclean, herr]

/-- The tree of a task is the tree of the call, and the resolver finds no error in it. -/
structure Launched (s : Session) (call : Call) (task : Task) : Prop where
  tree : task.tree = (s.parsed call).tree
  clean : (s.parsed call).clean = true
  noError : (resolve task.tree).hasError = false
  machine : (s.after call).machine = (task.perform.leaves (s.learned task.tree)).clearOutput

theorem leaves_bind_pure {α β : Type} (x : Eval α) (b : β) (m : Machine) :
    Eval.leaves (x >>= fun _ => pure b) m = x.leaves m := by
  unfold Eval.leaves
  cases hx : x m with
  | ok a m' => rw [bind_of_ok hx]; rfl
  | error e m' => rw [bind_of_error hx]

theorem leaves_map {α β : Type} (f : α → β) (x : Eval α) (m : Machine) :
    Eval.leaves (f <$> x) m = x.leaves m := by
  show Eval.leaves (EStateM.map f x) m = _
  unfold Eval.leaves EStateM.map
  cases x m <;> rfl

/-- **Behind a call the session is what its task left.** -/
theorem after_of_launch (h : s.launch? call = some task) : s.Launched call task := by
  cases call with
  | run source fuel =>
    unfold launch? at h
    cases hclean : (parse source s.nextId).clean with
    | false => simp [hclean] at h
    | true =>
      cases herr : (resolve (parse source s.nextId).tree).hasError with
      | true => simp [herr] at h
      | false =>
        obtain rfl : Task.program fuel (parse source s.nextId).tree = task := by
          simpa [hclean, herr] using h
        refine ⟨rfl, hclean, herr, ?_⟩
        rw [after, run_of_clean hclean herr, snd_perform, Task.perform, leaves_bind_pure]
        rfl
  | evaluate source fuel =>
    unfold launch? at h
    cases htree : (parseExpression source s.nextId).tree with
    | none => simp [htree] at h
    | some e =>
      cases hclean : (parseExpression source s.nextId).clean with
      | false => simp [htree, hclean] at h
      | true =>
        cases herr : (resolve [.expression e]).hasError with
        | true => simp [htree, herr] at h
        | false =>
          obtain rfl : Task.expression fuel e = task := by simpa [htree, hclean, herr] using h
          refine ⟨?_, hclean, herr, ?_⟩
          · simp [parsed, htree, Task.tree]
          · rw [after, evaluate_of_clean hclean htree herr, snd_perform, Task.perform, leaves_map]
            rfl
  | setPrinter answers => cases h

/-- A call that sets nothing going leaves the machine as it is, but for the printer. -/
theorem after_of_not_launch (h : s.launch? call = none) :
    ∃ answers, (s.after call).machine = { s.machine with printer := answers } := by
  cases call with
  | run source fuel =>
    refine ⟨s.machine.printer, ?_⟩
    unfold launch? at h
    cases hclean : (parse source s.nextId).clean with
    | false => rw [after, run_of_unclean hclean]
    | true =>
      cases herr : (resolve (parse source s.nextId).tree).hasError with
      | true => rw [after, run_of_error hclean herr]
      | false => simp [hclean, herr] at h
  | evaluate source fuel =>
    refine ⟨s.machine.printer, ?_⟩
    unfold launch? at h
    cases hclean : (parseExpression source s.nextId).clean with
    | false => rw [after, evaluate_of_unclean hclean]
    | true =>
      cases htree : (parseExpression source s.nextId).tree with
      | none =>
        rw [clean_of_tree_eq_none source s.nextId htree] at hclean
        cases hclean
      | some e =>
        cases herr : (resolve [.expression e]).hasError with
        | true => rw [after, evaluate_of_error hclean htree herr]
        | false => simp [htree, hclean, herr] at h
  | setPrinter answers => exact ⟨answers, rfl⟩

end Session

end Lox
