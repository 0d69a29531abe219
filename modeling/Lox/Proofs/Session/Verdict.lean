import Lox.Document.Analysis
import Lox.Proofs.Binding.Renumbered
import Lox.Proofs.Session.Outcomes
import Lox.Proofs.Syntax.Elsewhere

/-!
# The editor and the runner agree

An editor analyses a document on its own, a session runs it with the numbers that earlier submissions
left. Both judge the text alone.

* `staticComplaints`: what is wrong with a text before it runs, by the first number of its
  occurrences; **`staticComplaints_eq`**: that number does not matter;
* `Submission.staticReports`: what was reported, without a failure of the running program at its end;
* **`Session.verdict_agrees`**: what a session reports of a text before it runs is what an editor
  shows of it, whatever was submitted before.
-/

namespace Lox

/-! ## What is wrong with a text -/

/-- What is wrong with a text before it runs: the problems of its syntax, and if there are none, the
broken static rules and the definitions that nobody uses. -/
def staticComplaints (source : String) (firstId : ExprId) : List Complaint :=
  if (parse source firstId).clean then (resolve (parse source firstId).tree).complaints
  else (parse source firstId).complaints

theorem clean_shift (source : String) (n k : ExprId) :
    (parse source (n + k)).clean = (parse source n).clean := by
  rw [parse_shift]
  rfl

/-- **What is wrong with a text does not depend on the number of its first occurrence.** -/
theorem staticComplaints_eq (source : String) (n : ExprId) :
    staticComplaints source n = staticComplaints source 0 := by
  have hclean := clean_shift source 0 n
  have hparse := parse_shift source 0 n
  rw [Nat.zero_add] at hclean hparse
  rw [staticComplaints, staticComplaints, hclean, hparse, (resolve_shiftAll n _).2]

theorem diagnostics_analyze (source : String) :
    (analyze source).diagnostics =
      (staticComplaints source 0).map fun c => c.report.diagnostic := by
  cases hclean : (parse source 0).clean with
  | false => simp [analyze, staticComplaints, hclean, Parsed.reports]
  | true =>
    cases herr : (resolve (parse source 0).tree).hasError <;>
      simp [analyze, staticComplaints, hclean, herr, Resolution.reports]

/-- A text whose syntax has a problem has an error. -/
theorem any_isError_of_unclean {source : String} {n : ExprId}
    (h : (parse source n).clean = false) :
    (staticComplaints source n).any Complaint.isError = true := by
  rw [staticComplaints, h]
  exact (grave_parse source n).any_isError h

/-! ## What is reported of it -/

/-- What was reported, without a failure of the running program at its end. -/
def Submission.staticReports {α : Type} (r : Submission α) : List Report :=
  match r.reports.getLast? with
  | some (.failure _) => r.reports.dropLast
  | _ => r.reports

namespace Submission

variable {α : Type} {r : Submission α}

theorem staticReports_concat {reports : List Report} {f : Failure}
    (h : r.reports = reports ++ [f.report]) : r.staticReports = reports := by
  rw [staticReports, h, List.getLast?_concat]
  exact List.dropLast_concat

theorem staticReports_complaints {complaints : List Complaint}
    (h : r.reports = complaints.map Complaint.report) :
    r.staticReports = complaints.map Complaint.report := by
  rw [staticReports, h, List.getLast?_map]
  cases complaints.getLast? with
  | none => rfl
  | some c =>
    have hreport : ∀ e, c.report ≠ .failure e := by
      intro e he
      unfold Complaint.report at he
      split at he <;> cases he
    rw [Option.map_some]
    split
    · rename_i e he
      exact absurd (Option.some.inj he) (hreport e)
    · rfl

end Submission

namespace Session

variable (s : Session) (source : String) (fuel : Nat)

/-- **A session reports what is wrong with a text**, and runs it unless that is an error. -/
theorem staticReports_run :
    (s.run source fuel).1.staticReports = (staticComplaints source s.nextId).map Complaint.report ∧
      ((s.run source fuel).1.result = .staticError ↔
        (staticComplaints source s.nextId).any Complaint.isError = true) := by
  cases hclean : (parse source s.nextId).clean with
  | false =>
    have herr := any_isError_of_unclean hclean
    rw [staticComplaints, hclean] at herr ⊢
    rw [run_of_unclean hclean]
    exact ⟨Submission.staticReports_complaints rfl, iff_of_true rfl herr⟩
  | true =>
    rw [staticComplaints, hclean, if_pos rfl]
    cases herr : (resolve (parse source s.nextId).tree).hasError with
    | true =>
      rw [run_of_error hclean herr]
      exact ⟨Submission.staticReports_complaints rfl, iff_of_true rfl herr⟩
    | false =>
      have hrules : ¬ (resolve (parse source s.nextId).tree).complaints.any Complaint.isError = true :=
        Bool.eq_false_iff.mp herr
      have hrun : s.run source fuel = _ := run_of_clean hclean herr
      cases hx : executeAll fuel (parse source s.nextId).tree
          (s.learned (parse source s.nextId).tree) with
      | ok a m =>
        rw [perform_of_ok hx] at hrun
        rw [hrun]
        exact ⟨Submission.staticReports_complaints rfl, iff_of_false nofun hrules⟩
      | error e m =>
        cases e with
        | failure f =>
          rw [perform_of_failure hx] at hrun
          rw [hrun]
          exact ⟨Submission.staticReports_concat rfl, iff_of_false nofun hrules⟩
        | outOfFuel =>
          rw [perform_of_outOfFuel hx] at hrun
          rw [hrun]
          exact ⟨Submission.staticReports_complaints rfl, iff_of_false nofun hrules⟩

/-- **The editor and the runner agree.** What a session reports of a text, without a failure of
the running program at its end, is what an editor shows of it, and the session refuses the text if
and only if the editor shows an error. -/
theorem verdict_agrees :
    (s.run source fuel).1.staticReports.map Report.diagnostic = (analyze source).diagnostics ∧
      ((s.run source fuel).1.result = .staticError ↔
        (analyze source).diagnostics.any Diagnostic.isError = true) := by
  obtain ⟨hreports, hresult⟩ := s.staticReports_run source fuel
  rw [staticComplaints_eq] at hreports hresult
  rw [hreports, hresult, diagnostics_analyze, List.any_map, List.map_map]
  refine ⟨rfl, ?_⟩
  have herrors : Complaint.isError = Diagnostic.isError ∘ fun c : Complaint => c.report.diagnostic :=
    funext fun c => (Complaint.isError_diagnostic c).symm
  rw [herrors]

end Session

end Lox
