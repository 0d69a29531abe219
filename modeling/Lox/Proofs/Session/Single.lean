import Lox.Proofs.Machine.Depth
import Lox.Proofs.Session.Calls
import Lox.Proofs.Syntax.Alone

/-!
# An expression and the program that it is

An expression can be submitted as it stands, or as a program with a semicolon behind it.

* `executeAll_expression`: running the program is evaluating the expression;
* `Session.SameEffect`: two submissions tell the host the same and leave the same session;
* **`Session.expressions_agree`**: both ways to submit an expression have the same effect.
-/

namespace Lox

namespace Session

variable {s : Session} {source : String} {fuel : Nat} {e : Expr}

/-- Running an expression statement is evaluating its expression, one level deeper. -/
theorem executeAll_expression (fuel : Nat) (e : Expr) (m : Machine) :
    executeAll (fuel + 1) [.expression e] m =
      match Eval.evaluate fuel e m with
      | .ok _ m' => .ok () m'
      | .error i m' => .error i m' := by
  have hstep : Eval.execute (fuel + 1) (.expression e) =
      (Eval.evaluate fuel e >>= fun _ => pure .normal) := by
    rw [Eval.execute, Eval.executeRule]
  cases hx : Eval.evaluate fuel e m with
  | ok v m' =>
    have hok : Eval.execute (fuel + 1) (.expression e) m = .ok .normal m' := by
      rw [hstep, bind_of_ok hx]
      rfl
    rw [executeAll, bind_of_ok hok]
    rfl
  | error i m' =>
    have herror : Eval.execute (fuel + 1) (.expression e) m = .error i m' := by
      rw [hstep, bind_of_error hx]
    rw [executeAll, bind_of_error herror]

/-- An expression and a program tell the host the same, but that the program has no value, and leave
the same session. -/
structure SameEffect (r : Submission (Option Value) × Session) (r' : Submission Outcome × Session) :
    Prop where
  reports : r.1.reports = r'.1.reports
  output : r.1.output = r'.1.output
  session : r.2 = r'.2
  value : r.1.result.isSome = true ↔ r'.1.result = .completed

theorem sameEffect_perform {action : Eval Value} {action' : Eval Unit} (warnings : List Report)
    (h : action' s.machine =
      match action s.machine with
      | .ok _ m' => .ok () m'
      | .error i m' => .error i m') :
    SameEffect (s.perform warnings action some none none)
      (s.perform warnings action' (fun _ => .completed) .runtimeError .outOfFuel) := by
  cases hx : action s.machine with
  | ok v m' =>
    rw [hx] at h
    rw [perform_of_ok hx, perform_of_ok h]
    exact ⟨rfl, rfl, rfl, iff_of_true rfl rfl⟩
  | error i m' =>
    rw [hx] at h
    cases i with
    | failure f =>
      rw [perform_of_failure hx, perform_of_failure h]
      exact ⟨rfl, rfl, rfl, iff_of_false nofun nofun⟩
    | outOfFuel =>
      rw [perform_of_outOfFuel hx, perform_of_outOfFuel h]
      exact ⟨rfl, rfl, rfl, iff_of_false nofun nofun⟩

variable (hclean : (parseExpression source s.nextId).clean = true)
variable (htree : (parseExpression source s.nextId).tree = some e)

include hclean htree

theorem sameEffect_refused (herr : (resolve [.expression e]).hasError = true) (fuel fuel' : Nat) :
    SameEffect (s.evaluate source fuel) (s.run (source ++ "\n" ++ ";") fuel') := by
  obtain ⟨hparse, hprogram, hid⟩ := parse_semicolon hclean htree
  rw [evaluate_of_error hclean htree herr, run_of_error hparse (by rw [hprogram, herr]), hprogram,
    hid]
  exact ⟨rfl, rfl, rfl, iff_of_false nofun nofun⟩

/-- **An expression and the program with a semicolon behind it have the same effect.** The statement
stands one level above the expression. -/
theorem sameEffect_semicolon (fuel : Nat) :
    SameEffect (s.evaluate source fuel) (s.run (source ++ "\n" ++ ";") (fuel + 1)) := by
  obtain ⟨hparse, hprogram, hid⟩ := parse_semicolon hclean htree
  cases herr : (resolve [.expression e]).hasError with
  | true => exact sameEffect_refused hclean htree herr fuel (fuel + 1)
  | false =>
    rw [evaluate_of_clean hclean htree herr, run_of_clean hparse (by rw [hprogram, herr]), hprogram,
      hid]
    exact sameEffect_perform _ (executeAll_expression fuel e _)

/-- With the same bound they have the same effect unless the program reaches it. -/
theorem sameEffect_of_bound
    (hbound : (s.run (source ++ "\n" ++ ";") fuel).1.result ≠ .outOfFuel) :
    SameEffect (s.evaluate source fuel) (s.run (source ++ "\n" ++ ";") fuel) := by
  obtain ⟨hparse, hprogram, hid⟩ := parse_semicolon hclean htree
  cases herr : (resolve [.expression e]).hasError with
  | true => exact sameEffect_refused hclean htree herr fuel fuel
  | false =>
    have hrun : s.run (source ++ "\n" ++ ";") fuel = _ :=
      run_of_clean hparse (by rw [hprogram, herr])
    rw [hprogram, hid] at hrun
    cases fuel with
    | zero =>
      rw [hrun] at hbound
      exact absurd rfl hbound
    | succ fuel =>
      have h := sameEffect_semicolon hclean htree fuel
      have hmore : Eval.evaluate (fuel + 1) e (s.learned [.expression e]) =
          Eval.evaluate fuel e (s.learned [.expression e]) := by
        refine Eval.evaluate_of_le (Nat.le_succ fuel) fun m' hm' => hbound ?_
        have hall := executeAll_expression fuel e (s.learned [.expression e])
        rw [hm'] at hall
        rw [hrun, perform_of_outOfFuel hall]
      have heval : s.evaluate source (fuel + 1) = s.evaluate source fuel := by
        rw [evaluate_of_clean hclean htree herr, evaluate_of_clean hclean htree herr, perform, perform,
          hmore]
      rwa [heval]

omit hclean htree

/-- **The two ways to submit an expression agree**: alone, and as a program with a semicolon on
the line behind it. Both have the same tree and the same effect, and there is a value if and only
if the program is completed. The program needs a bound for one level more. -/
theorem expressions_agree (source : String) :
    (∀ n, isExpression source = true ↔
      ∃ e, (parse (source ++ "\n" ++ ";") n).clean = true ∧
        (parse (source ++ "\n" ++ ";") n).tree = [.expression e]) ∧
      (∀ n e, (parse (source ++ "\n" ++ ";") n).clean = true →
        (parse (source ++ "\n" ++ ";") n).tree = [.expression e] →
          (parseExpression source n).tree = some e) ∧
      (isExpression source = true → ∀ (s : Session) (fuel : Nat),
        SameEffect (s.evaluate source fuel) (s.run (source ++ "\n" ++ ";") (fuel + 1)) ∧
          ((s.run (source ++ "\n" ++ ";") fuel).1.result ≠ .outOfFuel →
            SameEffect (s.evaluate source fuel) (s.run (source ++ "\n" ++ ";") fuel))) := by
  refine ⟨fun n => ?_, fun n e hclean htree => ?_, fun h s fuel => ?_⟩
  · rw [isExpression_iff source n]
    exact exists_congr fun e => parseExpression_iff source n e
  · exact ((parseExpression_iff source n e).mpr ⟨hclean, htree⟩).2
  · obtain ⟨e, hclean, htree⟩ := (isExpression_iff source s.nextId).mp h
    exact ⟨sameEffect_semicolon hclean htree fuel, sameEffect_of_bound hclean htree⟩

/-- A call that fails, with a comment behind it. -/
theorem expressions_agree_clock :
    isExpression "clock() + clock // twice" = true ∧
      (parseExpression "clock() + clock // twice" 5).tree.isSome = true ∧
      SameEffect ((start fun _ => 0).evaluate "clock() + clock // twice" 9)
        ((start fun _ => 0).run ("clock() + clock // twice" ++ "\n" ++ ";") 10) := by
  have hexpression : isExpression "clock() + clock // twice" = true := by decide +kernel
  have hagree := expressions_agree "clock() + clock // twice"
  obtain ⟨e, hclean, htree⟩ := (hagree.1 5).mp hexpression
  exact ⟨hexpression, by rw [hagree.2.1 5 e hclean htree]; rfl, (hagree.2.2 hexpression _ 9).1⟩

end Session

end Lox
