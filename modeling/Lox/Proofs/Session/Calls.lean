import Lox.Proofs.Binding.Legal
import Lox.Proofs.Machine.Steady
import Lox.Session

/-!
# Sessions over time

* `Session.Call`: what a host can do to a session, `Session.after`, `Session.afterAll`: what becomes
  of it;
* `Session.parsed`, `Session.resolution?`: what a call makes of its text;
* `Session.run_of_clean`, `Session.evaluate_of_clean`, …: what a submission is, by what is wrong
  with its text;
* `Session.nextId_after`, `Session.distances_after`: numbers and distances behind a call;
* `Eval.leaves`: the machine that an action leaves, however it ends.
-/

namespace Lox

/-- The machine that an action leaves, however it ends. -/
def Eval.leaves {α : Type} (x : Eval α) (m : Machine) : Machine :=
  match x m with
  | .ok _ m' => m'
  | .error _ m' => m'

theorem Ensures.leaves {α : Type} {P : Machine → Prop} {x : Eval α} {m : Machine}
    (h : Ensures x m (fun _ m' => P m') fun _ m' => P m') : P (x.leaves m) := by
  unfold Ensures at h
  unfold Eval.leaves
  cases hx : x m with
  | ok a m' =>
    rw [hx] at h
    exact h
  | error e m' =>
    rw [hx] at h
    exact h

theorem Eval.Keeps.leaves {α : Type} {R : Machine → Machine → Prop} {x : Eval α} (h : x.Keeps R)
    (m : Machine) : R m (x.leaves m) := (h m).leaves

namespace Session

/-- What a host can do to a session. -/
inductive Call where
  | run (source : String) (fuel : Nat)
  | evaluate (source : String) (fuel : Nat)
  | setPrinter (answers : Nat → Option Refusal)

/-- What becomes of a session by a call, whatever its outcome. -/
def after (s : Session) : Call → Session
  | .run source fuel => (s.run source fuel).2
  | .evaluate source fuel => (s.evaluate source fuel).2
  | .setPrinter answers => s.setPrinter answers

/-- What becomes of a session by several calls. -/
def afterAll (s : Session) (calls : List Call) : Session := calls.foldl after s

/-- What a call makes of its text. An expression counts as a program of one statement. -/
def parsed (s : Session) : Call → Parsed (List Stmt)
  | .run source _ => parse source s.nextId
  | .evaluate source _ =>
    let p := parseExpression source s.nextId
    ⟨p.tree.toList.map .expression, p.complaints, p.nextId⟩
  | .setPrinter _ => ⟨[], [], s.nextId⟩

/-- What the resolver makes of the tree of a call. A text with a problem is not resolved. -/
def resolution? (s : Session) (call : Call) : Option Resolution :=
  if (s.parsed call).clean then some (resolve (s.parsed call).tree) else none

theorem afterAll_append (s : Session) (calls calls' : List Call) :
    s.afterAll (calls ++ calls') = (s.afterAll calls).afterAll calls' :=
  List.foldl_append

/-! ## Single submissions -/

/-- The machine in which a program runs. -/
def learned (s : Session) (program : List Stmt) : Machine :=
  s.machine.addDistances (resolve program).distances

section

variable {s : Session} {source : String} {fuel : Nat}

theorem run_of_unclean (h : (parse source s.nextId).clean = false) :
    s.run source fuel = (⟨.staticError, (parse source s.nextId).reports, ""⟩,
      ⟨s.machine, (parse source s.nextId).nextId⟩) := by
  simp [run, h]

theorem run_of_error (h : (parse source s.nextId).clean = true)
    (herr : (resolve (parse source s.nextId).tree).hasError = true) :
    s.run source fuel = (⟨.staticError, (resolve (parse source s.nextId).tree).reports, ""⟩,
      ⟨s.machine, (parse source s.nextId).nextId⟩) := by
  unfold run
  simp only [h, herr]
  rfl

theorem run_of_clean (h : (parse source s.nextId).clean = true)
    (herr : (resolve (parse source s.nextId).tree).hasError = false) :
    s.run source fuel =
      perform ⟨s.learned (parse source s.nextId).tree, (parse source s.nextId).nextId⟩
        (resolve (parse source s.nextId).tree).reports
        (executeAll fuel (parse source s.nextId).tree) (fun _ => .completed) .runtimeError
        .outOfFuel := by
  unfold run
  simp only [h, herr]
  rfl

theorem evaluate_of_unclean (h : (parseExpression source s.nextId).clean = false) :
    s.evaluate source fuel = (⟨none, (parseExpression source s.nextId).reports, ""⟩,
      ⟨s.machine, (parseExpression source s.nextId).nextId⟩) := by
  unfold evaluate
  simp only [h]
  split <;> trivial

variable {e : Expr}

theorem evaluate_of_error (h : (parseExpression source s.nextId).clean = true)
    (he : (parseExpression source s.nextId).tree = some e)
    (herr : (resolve [.expression e]).hasError = true) :
    s.evaluate source fuel = (⟨none, (resolve [.expression e]).reports, ""⟩,
      ⟨s.machine, (parseExpression source s.nextId).nextId⟩) := by
  unfold evaluate
  simp only [h, he, herr]
  rfl

theorem evaluate_of_clean (h : (parseExpression source s.nextId).clean = true)
    (he : (parseExpression source s.nextId).tree = some e)
    (herr : (resolve [.expression e]).hasError = false) :
    s.evaluate source fuel =
      perform ⟨s.learned [.expression e], (parseExpression source s.nextId).nextId⟩
        (resolve [.expression e]).reports (Eval.evaluate fuel e) some none none := by
  unfold evaluate
  simp only [h, he, herr]
  rfl

end

section

variable {α β : Type} {s : Session} {warnings : List Report} {action : Eval α} {onValue : α → β}
  {onFailure onFuel : β} {m : Machine}

theorem perform_of_ok {a : α} (h : action s.machine = .ok a m) :
    s.perform warnings action onValue onFailure onFuel =
      (⟨onValue a, warnings, m.output⟩, ⟨m.clearOutput, s.nextId⟩) := by
  simp [perform, h]

theorem perform_of_failure {f : Failure} (h : action s.machine = .error (.failure f) m) :
    s.perform warnings action onValue onFailure onFuel =
      (⟨onFailure, warnings ++ [f.report], m.output⟩, ⟨m.clearOutput, s.nextId⟩) := by
  simp [perform, h]

theorem perform_of_outOfFuel (h : action s.machine = .error .outOfFuel m) :
    s.perform warnings action onValue onFailure onFuel =
      (⟨onFuel, warnings, m.output⟩, ⟨m.clearOutput, s.nextId⟩) := by
  simp [perform, h]

variable (s warnings action onValue onFailure onFuel)

theorem snd_perform : (s.perform warnings action onValue onFailure onFuel).2 =
    ⟨(action.leaves s.machine).clearOutput, s.nextId⟩ := by
  unfold perform Eval.leaves
  split <;> simp [*]

end

/-! ## What a call leaves -/

theorem steady_executeAll {R : Machine → Machine → Prop} (h : Steady R) (fuel : Nat)
    (ss : List Stmt) : (executeAll fuel ss).Keeps R := by
  induction ss with
  | nil => exact h.pure ()
  | cons s rest ih => exact h.bind (h.execute fuel s) fun _ => ih

/-- **A call advances the numbers to behind its tree, whatever its outcome.** -/
theorem nextId_after (s : Session) (call : Call) : (s.after call).nextId = (s.parsed call).nextId := by
  cases call with
  | run source fuel =>
    unfold after run parsed
    dsimp only
    split
    · rfl
    · split
      · rfl
      · rw [snd_perform]
        rfl
  | evaluate source fuel =>
    unfold after evaluate parsed
    dsimp only
    split
    · split
      · rfl
      · rw [snd_perform]
        rfl
    · rfl
  | setPrinter answers => rfl

/-- **A call learns the distances that were recorded for its tree, or none.** -/
theorem distances_after (s : Session) (call : Call) :
    (s.after call).machine.distances = s.machine.distances ∨
      ∃ r, s.resolution? call = some r ∧
        (s.after call).machine.distances = s.machine.distances ∪ r.distances := by
  cases call with
  | run source fuel =>
    unfold after resolution? parsed
    dsimp only
    cases hclean : (parse source s.nextId).clean with
    | false => exact .inl (by rw [run_of_unclean hclean])
    | true =>
      cases herr : (resolve (parse source s.nextId).tree).hasError with
      | true => exact .inl (by rw [run_of_error hclean herr])
      | false =>
        rw [run_of_clean hclean herr, snd_perform]
        exact .inr ⟨_, rfl, ((steady_executeAll steady_surroundings fuel _).leaves _).distances⟩
  | evaluate source fuel =>
    unfold after resolution? parsed
    dsimp only
    cases hclean : (parseExpression source s.nextId).clean with
    | false => exact .inl (by rw [evaluate_of_unclean hclean])
    | true =>
      cases htree : (parseExpression source s.nextId).tree with
      | none =>
        rw [clean_of_tree_eq_none source s.nextId htree] at hclean
        cases hclean
      | some e =>
        cases herr : (resolve [.expression e]).hasError with
        | true => exact .inl (by rw [evaluate_of_error hclean htree herr])
        | false =>
          rw [evaluate_of_clean hclean htree herr, snd_perform]
          refine .inr ⟨resolve [.expression e], if_pos hclean, ?_⟩
          exact ((steady_surroundings.evaluate fuel e).leaves _).distances
  | setPrinter answers => exact .inl rfl

end Session

end Lox
