import Lox.Proofs.Session.Calls

/-!
# Outcomes and reports

What a host is told by the outcome of a submission and what it is told by the reports agree, and a
submission with a problem in its text leaves everything as it is.

* `Submission.errors`: the errors among what was reported;
* `Session.FailsAt`: a program fails at one of its statements and runs nothing behind it;
* `Session.RunAgrees`, `Session.EvaluateAgrees`: the outcome agrees with the reports;
* **`Session.submissions_agree`**: it always does.
-/

namespace Lox

/-! ## Errors among reports -/

/-- The errors among what was reported. -/
def Submission.errors {α : Type} (r : Submission α) : List Report :=
  r.reports.filter fun report => report.diagnostic.isError

theorem Complaint.isError_diagnostic (c : Complaint) : c.report.diagnostic.isError = isError c := by
  unfold Complaint.report isError
  cases c.value.severity <;> rfl

section

variable (complaints : List Complaint)

theorem any_isStaticError_reports :
    (complaints.map Complaint.report).any Report.isStaticError = complaints.any Complaint.isError := by
  simp only [List.any_map, Function.comp_def, Complaint.isStaticError_report]

theorem any_isFailure_reports : (complaints.map Complaint.report).any Report.isFailure = false := by
  simp [Function.comp_def, Complaint.isFailure_report]

theorem errors_reports :
    (complaints.map Complaint.report).filter (fun report => report.diagnostic.isError) =
      (complaints.filter Complaint.isError).map Complaint.report := by
  simp only [List.filter_map, Function.comp_def, Complaint.isError_diagnostic]

theorem errors_reports_ne_failure (e : Error) :
    (complaints.map Complaint.report).filter (fun report => report.diagnostic.isError) ≠
      [.failure e] := by
  intro h
  have hmem : Report.failure e ∈ complaints.map Complaint.report :=
    (List.mem_filter.mp (h ▸ List.mem_singleton_self _)).1
  exact List.any_eq_false.mp (any_isFailure_reports complaints) _ hmem rfl

variable {complaints}

theorem errors_reports_eq_nil (h : complaints.any Complaint.isError = false) :
    (complaints.map Complaint.report).filter (fun report => report.diagnostic.isError) = [] := by
  rw [errors_reports, List.map_eq_nil_iff, List.filter_eq_nil_iff]
  exact List.any_eq_false.mp h

theorem errors_reports_ne_nil (h : complaints.any Complaint.isError = true) :
    (complaints.map Complaint.report).filter (fun report => report.diagnostic.isError) ≠ [] := by
  rw [errors_reports, Ne, List.map_eq_nil_iff, List.filter_eq_nil_iff]
  simpa using h

theorem Grave.any_isError (h : Grave complaints) (hne : complaints.isEmpty = false) :
    complaints.any Complaint.isError = true := by
  cases complaints with
  | nil => cases hne
  | cons c rest => simp [h c List.mem_cons_self]

end

namespace Session

/-! ## Programs that fail -/

/-- The program runs up to one of its statements, which fails in the machine `m'`. -/
def FailsAt (fuel : Nat) (program : List Stmt) (f : Failure) (m m' : Machine) : Prop :=
  ∃ before failing later m₁, program = before ++ failing :: later ∧
    executeAll fuel before m = .ok () m₁ ∧ Eval.execute fuel failing m₁ = .error (.failure f) m'

theorem failsAt_of_error {fuel : Nat} {program : List Stmt} {f : Failure} {m m' : Machine}
    (h : executeAll fuel program m = .error (.failure f) m') : FailsAt fuel program f m m' := by
  induction program generalizing m with
  | nil => cases h
  | cons s rest ih =>
    cases hs : Eval.execute fuel s m with
    | error e m₁ =>
      rw [executeAll, bind_of_error hs] at h
      cases h
      exact ⟨[], s, rest, m, rfl, rfl, hs⟩
    | ok ended m₁ =>
      rw [executeAll, bind_of_ok hs] at h
      obtain ⟨before, failing, later, m₂, rfl, hbefore, hfails⟩ := ih h
      refine ⟨s :: before, failing, later, m₂, rfl, ?_, hfails⟩
      rw [executeAll, bind_of_ok hs]
      exact hbefore

/-! ## Outcomes -/

/-- What the outcome of a program tells, what its reports tell and what it did. -/
structure RunAgrees (s : Session) (source : String) (fuel : Nat) : Prop where
  static : (s.run source fuel).1.result = .staticError ↔
    (s.run source fuel).1.reports.any Report.isStaticError = true
  static_effects : (s.run source fuel).1.result = .staticError →
    (s.run source fuel).1.output = "" ∧ (s.run source fuel).2.machine = s.machine
  failed : (s.run source fuel).1.result = .runtimeError ↔
    ∃ e, (s.run source fuel).1.errors = [.failure e]
  failed_effects : (s.run source fuel).1.result = .runtimeError →
    ∃ f m', (s.run source fuel).1.errors = [f.report] ∧
      FailsAt fuel (parse source s.nextId).tree f (s.learned (parse source s.nextId).tree) m' ∧
      (s.run source fuel).1.output = m'.output ∧ (s.run source fuel).2.machine = m'.clearOutput
  completed : (s.run source fuel).1.result = .completed ↔
    (s.run source fuel).1.errors = [] ∧ (s.run source fuel).1.result ≠ .outOfFuel
  /-- The counts of the deliveries tell the same. -/
  counted : ((s.run source fuel).1.result = .staticError ↔
      (Tally.ofReports (s.run source fuel).1.reports).hadError = true) ∧
    ((s.run source fuel).1.result = .runtimeError ↔
      (Tally.ofReports (s.run source fuel).1.reports).hadFailure = true)
  /-- The bound is reached only where the program itself reaches it. -/
  bound : (s.run source fuel).1.result = .outOfFuel →
    ∃ m', executeAll fuel (parse source s.nextId).tree (s.learned (parse source s.nextId).tree) =
      .error .outOfFuel m'

/-- What the result of an expression tells, what its reports tell and what it did. -/
structure EvaluateAgrees (s : Session) (source : String) (fuel : Nat) : Prop where
  value : (s.evaluate source fuel).1.result.isSome = true ↔
    (s.evaluate source fuel).1.errors = [] ∧
      ∀ e m', (parseExpression source s.nextId).tree = some e →
        Eval.evaluate fuel e (s.learned [.expression e]) ≠ .error .outOfFuel m'
  static_effects : (s.evaluate source fuel).1.reports.any Report.isStaticError = true →
    (s.evaluate source fuel).1.output = "" ∧ (s.evaluate source fuel).2.machine = s.machine

theorem RunAgrees.of_static {s s' : Session} {source : String} {fuel : Nat}
    {complaints : List Complaint}
    (h : s.run source fuel = (⟨.staticError, complaints.map Complaint.report, ""⟩, s'))
    (hs : s'.machine = s.machine) (herr : complaints.any Complaint.isError = true) :
    s.RunAgrees source fuel where
  static := by
    rw [h, any_isStaticError_reports, herr]
    simp
  static_effects := by simp [h, hs]
  failed := by simp [h, Submission.errors, errors_reports_ne_failure]
  failed_effects := by simp [h]
  completed := by simp [h, Submission.errors, errors_reports_ne_nil herr]
  counted := by
    rw [h, Tally.hadError_ofReports, Tally.hadFailure_ofReports, any_isStaticError_reports, herr,
      any_isFailure_reports]
    simp
  bound := by simp [h]

/-- **The outcome of a program agrees with its reports.** -/
theorem run_agrees (s : Session) (source : String) (fuel : Nat) : s.RunAgrees source fuel := by
  cases hclean : (parse source s.nextId).clean with
  | false =>
    exact .of_static (run_of_unclean hclean) rfl ((grave_parse source s.nextId).any_isError hclean)
  | true =>
    cases herr : (resolve (parse source s.nextId).tree).hasError with
    | true => exact .of_static (run_of_error hclean herr) rfl herr
    | false =>
      have hrun : s.run source fuel = _ := run_of_clean hclean herr
      have hwarnings := errors_reports_eq_nil herr
      have hstatic := (any_isStaticError_reports _).trans herr
      have hnone := any_isFailure_reports (resolve (parse source s.nextId).tree).complaints
      rw [Resolution.reports] at hrun
      cases hx : executeAll fuel (parse source s.nextId).tree
          (s.learned (parse source s.nextId).tree) with
      | ok a m =>
        rw [perform_of_ok hx] at hrun
        constructor <;>
          simp [hrun, Submission.errors, hwarnings, hstatic, hnone, Tally.hadError_ofReports,
            Tally.hadFailure_ofReports]
      | error e m =>
        cases e with
        | failure f =>
          rw [perform_of_failure hx] at hrun
          have hnew : Report.isStaticError f.report = false := rfl
          have herror : f.report.diagnostic.isError = true := rfl
          constructor
          · simp [hrun, hstatic, hnew]
          · simp [hrun]
          · refine iff_of_true (by rw [hrun]) ⟨f.error, ?_⟩
            rw [hrun, Submission.errors, List.filter_append, hwarnings]
            rfl
          · intro _
            refine ⟨f, m, ?_, failsAt_of_error hx, ?_, ?_⟩ <;>
              simp [hrun, Submission.errors, hwarnings, herror]
          · simp [hrun, Submission.errors, herror]
          · have hfailure : Report.isFailure f.report = true := rfl
            simp [hrun, Tally.hadError_ofReports, Tally.hadFailure_ofReports, hstatic, hnew, hfailure]
          · simp [hrun]
        | outOfFuel =>
          rw [perform_of_outOfFuel hx] at hrun
          constructor
          all_goals
            simp [hrun, Submission.errors, hwarnings, hstatic, hnone, hx, Tally.hadError_ofReports,
              Tally.hadFailure_ofReports]

/-- **The result of an expression agrees with its reports.** -/
theorem evaluate_agrees (s : Session) (source : String) (fuel : Nat) :
    s.EvaluateAgrees source fuel := by
  have static {complaints : List Complaint} {s' : Session}
      (h : s.evaluate source fuel = (⟨none, complaints.map Complaint.report, ""⟩, s'))
      (hs : s'.machine = s.machine) (herr : complaints.any Complaint.isError = true) :
      s.EvaluateAgrees source fuel := by
    constructor
    · simp [h, Submission.errors, errors_reports_ne_nil herr]
    · simp [h, hs]
  cases hclean : (parseExpression source s.nextId).clean with
  | false =>
    exact static (evaluate_of_unclean hclean) rfl
      ((grave_parseExpression source s.nextId).any_isError hclean)
  | true =>
    cases htree : (parseExpression source s.nextId).tree with
    | none =>
      rw [clean_of_tree_eq_none source s.nextId htree] at hclean
      cases hclean
    | some e =>
      cases herr : (resolve [.expression e]).hasError with
      | true => exact static (evaluate_of_error hclean htree herr) rfl herr
      | false =>
        have heval : s.evaluate source fuel = _ := evaluate_of_clean hclean htree herr
        have hwarnings := errors_reports_eq_nil herr
        have hstatic := (any_isStaticError_reports _).trans herr
        rw [Resolution.reports] at heval
        cases hx : Eval.evaluate fuel e (s.learned [.expression e]) with
        | ok v m =>
          rw [perform_of_ok hx] at heval
          constructor
          · refine iff_of_true (by rw [heval]; rfl) ⟨by rw [heval]; exact hwarnings, ?_⟩
            rintro e' m' he
            obtain rfl := Option.some.inj (htree.symm.trans he)
            simp [hx]
          · simp [heval, hstatic]
        | error i m =>
          cases i with
          | failure f =>
            rw [perform_of_failure hx] at heval
            have hnew : Report.isStaticError f.report = false := rfl
            have herror : f.report.diagnostic.isError = true := rfl
            constructor <;> simp [heval, Submission.errors, hstatic, hnew, herror]
          | outOfFuel =>
            rw [perform_of_outOfFuel hx] at heval
            constructor
            · refine iff_of_false (by simp [heval]) fun h => h.2 e m htree hx
            · simp [heval, hstatic]

/-- **What a host is told by the outcome of a submission and what it is told by the reports
agree**, whatever the printer answers to each line: with a static outcome nothing was printed and
nothing changed, with a failure nothing ran behind it. -/
theorem submissions_agree (s : Session) (source : String) (fuel : Nat) :
    s.RunAgrees source fuel ∧ s.EvaluateAgrees source fuel :=
  ⟨s.run_agrees source fuel, s.evaluate_agrees source fuel⟩

-- the printer takes the first line and two characters of the second one
example :
    let s := (start fun _ => 0).setPrinter fun n => if n = 1 then some ⟨2, "closed"⟩ else none
    let r := (s.run "print true; print nil; print 1;" 20).1
    r.result = .runtimeError ∧ r.output = "true\nni" ∧
      r.errors.map Report.diagnostic = [⟨.error, .none, "closed"⟩] := by
  decide +kernel

end Session

end Lox
