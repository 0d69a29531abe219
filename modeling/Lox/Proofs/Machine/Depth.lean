import Lox.Proofs.Machine.Parallel

/-!
# More depth makes no difference

The bound on the depth of an evaluation only ever stops it. An evaluation that does not reach its
bound is the same with a greater one, whatever it does.

* `Eval.Deepens`: an action does what another one does, unless that one reached its bound;
* `parallel_deepens`, `Deepens.loop`: the rules of evaluation are made up of such actions;
* **`deepens_runs`**: evaluations, statements and calls do the same with a greater bound;
* **`evaluate_of_le`**: so the result of an expression that is reached stays.
-/

namespace Lox

namespace Eval

variable {α β : Type}

/-- Wherever `x` does not reach its bound, `y` does the same. -/
def Deepens (x y : Eval α) : Prop := ∀ m, (∃ m', x m = .error .outOfFuel m') ∨ y m = x m

theorem Deepens.outOfFuel {y : Eval α} : (Eval.outOfFuel).Deepens y := fun m => .inl ⟨m, rfl⟩

theorem Deepens.bind {x y : Eval α} {f g : α → Eval β} (h : x.Deepens y)
    (hf : ∀ a, (f a).Deepens (g a)) : (x >>= f).Deepens (y >>= g) := by
  intro m
  obtain ⟨m', hx⟩ | hy := h m
  · exact .inl ⟨m', bind_of_error hx⟩
  · cases hx : x m with
    | ok a m' =>
      rw [bind_of_ok hx, bind_of_ok (hy.trans hx)]
      exact hf a m'
    | error e m' => exact .inr (by rw [bind_of_error hx, bind_of_error (hy.trans hx)])

theorem Deepens.within {x y : Eval α} (scope : ScopeId) (h : x.Deepens y) :
    (Eval.within scope x).Deepens (Eval.within scope y) := by
  intro m
  unfold Eval.within
  obtain ⟨m', hx⟩ | hy := h { m with current := scope }
  · exact .inl ⟨{ m' with current := m.current }, by simp [hx]⟩
  · exact .inr (by simp only [hy])

theorem parallel_deepens : Parallel @Deepens where
  same := fun _ _ => .inr rfl
  bind := .bind
  within := .within

theorem Deepens.loop {condition condition' : Eval Bool} {body body' : Eval Completion}
    {step step' : Eval Unit} (hc : condition.Deepens condition') (hb : body.Deepens body')
    (hs : step.Deepens step') {fuel fuel' : Nat} (hf : fuel ≤ fuel') :
    (Eval.loop condition body step fuel).Deepens (Eval.loop condition' body' step' fuel') := by
  induction fuel generalizing fuel' with
  | zero => exact outOfFuel
  | succ fuel ih =>
    obtain ⟨fuel', rfl⟩ := Nat.exists_eq_add_one_of_ne_zero (Nat.ne_of_gt (Nat.zero_lt_of_lt hf))
    refine hc.bind fun goesOn => ?_
    cases goesOn with
    | false => exact parallel_deepens.pure _
    | true =>
      refine hb.bind fun ended => ?_
      cases ended with
      | «break» => exact parallel_deepens.pure _
      | «return» v => exact parallel_deepens.pure _
      | _ => exact hs.bind fun _ => ih (Nat.le_of_succ_le_succ hf)

/-! ## Runs -/

/-- **With a greater bound** expressions, statements and calls do the same, unless they reached the
smaller one. -/
theorem deepens_runs {fuel fuel' : Nat} (hf : fuel ≤ fuel') :
    (∀ e, (evaluate fuel e).Deepens (evaluate fuel' e)) ∧
      (∀ s, (execute fuel s).Deepens (execute fuel' s)) ∧
      ∀ callee arguments paren, (call fuel callee arguments paren).Deepens
        (call fuel' callee arguments paren) := by
  induction fuel generalizing fuel' with
  | zero => exact ⟨fun _ => .outOfFuel, fun _ => .outOfFuel, fun _ _ _ => .outOfFuel⟩
  | succ fuel ih =>
    obtain ⟨fuel', rfl⟩ := Nat.exists_eq_add_one_of_ne_zero (Nat.ne_of_gt (Nat.zero_lt_of_lt hf))
    obtain ⟨heval, hrun, hcall⟩ := ih (Nat.le_of_succ_le_succ hf)
    exact ⟨parallel_deepens.evaluateRule heval hcall,
      parallel_deepens.executeRule hrun heval fun hc hb hs =>
        hc.loop hb hs (Nat.le_of_succ_le_succ hf),
      parallel_deepens.callRule hrun⟩

/-- **What an expression does within its bound, it does with every greater one.** -/
theorem evaluate_of_le {fuel fuel' : Nat} (hf : fuel ≤ fuel') {e : Expr} {m : Machine}
    (h : ∀ m', evaluate fuel e m ≠ .error .outOfFuel m') : evaluate fuel' e m = evaluate fuel e m := by
  obtain ⟨m', hm⟩ | hm := (deepens_runs hf).1 e m
  · exact absurd hm (h m')
  · exact hm

end Eval

end Lox
