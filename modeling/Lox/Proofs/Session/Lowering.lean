import Lox.Proofs.Machine.AbreastRun
import Lox.Proofs.Machine.Depth
import Lox.Proofs.Session.Legal
import Lox.Proofs.Session.Outcomes

/-!
# The while form of a program

A program in which some `for` statements are replaced by their while form, and which is resolved
anew, does what the program does. It may be a few levels deeper in its evaluation and opens more
scopes, but nothing else that can be told from outside is different.

* `Session.submit`: submit the tree of a program, `Session.run_eq_submit`: what a text comes to;
* `abreast_executeAll`, `joins_start`: the program and its while form go on abreast from the start;
* `EndsAlike`: two submissions with the same outcome and corresponding globals;
* `Session.execute_of_le`: a program that ended within its bound does the same with a greater one;
* `Session.LoweringAgrees`: the program and its while form do the same;
* **`Session.lowering_agrees`**: they always do.
-/

namespace Lox

/-! ## Trees of programs -/

namespace Session

/-- Run a tree without a problem. -/
def execute (s : Session) (program : List Stmt) (fuel : Nat) : Submission Outcome × Session :=
  (s.learn (resolve program)).perform (resolve program).reports (executeAll fuel program)
    (fun _ => .completed) .runtimeError .outOfFuel

/-- Submit the tree of a program. -/
def submit (s : Session) (program : List Stmt) (fuel : Nat := maxDepth) :
    Submission Outcome × Session :=
  if (resolve program).hasError then (⟨.staticError, (resolve program).reports, ""⟩, s)
  else s.execute program fuel

variable {s : Session} {source : String} {program : List Stmt} {fuel fuel' : Nat}

theorem run_eq_submit (h : (parse source s.nextId).clean = true) :
    s.run source fuel =
      submit ⟨s.machine, (parse source s.nextId).nextId⟩ (parse source s.nextId).tree fuel := by
  unfold run
  simp only [h]
  rfl

theorem submit_of_quiet (h : (resolve program).hasError = false) :
    s.submit program fuel = s.execute program fuel := by
  rw [submit, h]
  rfl

/-! ## More depth -/

theorem deepens_executeAll (hf : fuel ≤ fuel') (ss : List Stmt) :
    (executeAll fuel ss).Deepens (executeAll fuel' ss) := by
  induction ss with
  | nil => exact Eval.parallel_deepens.pure ()
  | cons s rest ih => exact ((Eval.deepens_runs hf).2.1 s).bind fun _ => ih

theorem perform_congr {α β : Type} {x y : Eval α} (h : x s.machine = y s.machine)
    (warnings : List Report) (onValue : α → β) (onFailure onFuel : β) :
    s.perform warnings x onValue onFailure onFuel =
      s.perform warnings y onValue onFailure onFuel := by
  unfold perform
  rw [h]

/-- **A program that ended within its bound does the same with a greater one.** -/
theorem execute_of_le (hf : fuel ≤ fuel')
    (h : (s.execute program fuel).1.result ≠ .outOfFuel) :
    s.execute program fuel' = s.execute program fuel := by
  obtain ⟨m', hm⟩ | hm := deepens_executeAll hf program (s.learned program)
  · unfold execute at h
    rw [perform_of_outOfFuel hm] at h
    exact absurd rfl h
  · exact perform_congr hm _ _ _ _

end Session

/-! ## From the start -/

section Programs

variable {T T' : Distances} {pace : Pace} {W : Pairing} {pads : List Nat} {i k : ScopeId}

/-- **A program and its while form go on abreast.** -/
theorem abreast_executeAll {n n' : Nat} (hn : pace.Allows 0 n n') (hp : W pads i k)
    {ss ts : List Stmt} (h : Stmt.MatchesAll T T' pads ss ts) :
    Abreast T T' pace W i k (fun _ => Eq) (Session.executeAll n ss) (Session.executeAll n' ts) := by
  induction ss generalizing W ts with
  | nil =>
    cases h
    exact .pure fun _ _ => rfl
  | cons s rest ih =>
    cases h with
    | cons hs hrest =>
      exact ((abreast_runs hn).2.1 hp hs).bind fun W₁ hW _ _ _ => ih (hW _ _ _ hp) hrest

end Programs

/-- The outermost scopes stand for each other. -/
def Pairing.globals : Pairing := fun pads i k => pads = [0] ∧ i = 0 ∧ k = 0

section Start

variable (clock : Nat → Float) (T T' : Distances)

theorem Pairing.links_start : Pairing.globals.Links T T' (Session.start clock).machine.scopes
    (Session.start clock).machine.scopes where
  lt_size := by
    rintro pads i k ⟨-, rfl, rfl⟩
    rw [Session.size_start]
    exact ⟨Nat.one_pos, Nat.one_pos⟩
  globals := ⟨rfl, rfl, rfl⟩
  pad := by
    rintro n pads i k ⟨hpads, -, -⟩
    cases hpads
  outer := by
    rintro n pads i k ⟨hpads, -, -⟩
    cases hpads
  own := by
    rintro pads i k ⟨-, rfl, rfl⟩ name
    cases hv : (Session.start clock).machine.scopes.own? 0 name with
    | none => exact .none
    | some v =>
      rw [(Session.own?_start hv).2]
      exact .some (.native _)
  unique := by
    rintro pads pads' i k i' k' ⟨-, rfl, rfl⟩ ⟨-, rfl, rfl⟩
    exact iff_of_true rfl rfl

theorem Pairing.joins_start :
    Pairing.globals.Joins T T' 0 0 ((Session.start clock).machine.relearned T)
      ((Session.start clock).machine.relearned T') where
  links := links_start clock T T'
  size := rfl
  fields := fun _ => .none
  current := rfl
  current' := rfl
  globals := rfl
  globals' := rfl
  distances := rfl
  distances' := rfl
  nextObject := rfl
  printed := rfl
  printer := rfl
  writes := rfl
  clock := rfl
  readings := rfl

end Start

/-! ## Submissions that end alike -/

/-- Two submissions came equally far, failed with the same error, printed the same text and left
corresponding globals. -/
structure EndsAlike (r r' : Submission Outcome × Session) : Prop where
  result : r'.1.result = r.1.result
  errors : r'.1.errors = r.1.errors
  output : r'.1.output = r.1.output
  /-- Scopes stand for each other, and instances have the same numbers and corresponding fields. -/
  globals : ∃ W : Pairing,
    W.Joins r.2.machine.distances r'.2.machine.distances 0 0 r.2.machine r'.2.machine ∧
    ∀ name, Option.Rel (Value.Pairs r.2.machine.distances r'.2.machine.distances W)
      (r.2.global? name) (r'.2.global? name)
  kinds : ∀ name, (r'.2.global? name).map Value.kind = (r.2.global? name).map Value.kind
  texts : ∀ name, (r'.2.global? name).map Value.text = (r.2.global? name).map Value.text

theorem map_eq_of_rel {α β : Type} {R : α → α → Prop} {a a' : Option α} (h : Option.Rel R a a')
    {f : α → β} (hf : ∀ x x', R x x' → f x' = f x) : a'.map f = a.map f := by
  cases h with
  | none => rfl
  | some hx => exact congrArg some (hf _ _ hx)

theorem EndsAlike.of_joins {T T' : Distances} {W : Pairing} {m m' : Machine}
    (h : W.Joins T T' 0 0 m m') {result : Outcome} {reports reports' : List Report}
    {next next' : ExprId}
    (herrors : (reports'.filter fun report => report.diagnostic.isError) =
      reports.filter fun report => report.diagnostic.isError) :
    EndsAlike (⟨result, reports, m.output⟩, ⟨m.clearOutput, next⟩)
      (⟨result, reports', m'.output⟩, ⟨m'.clearOutput, next'⟩) := by
  have hleft := h.clearOutput
  obtain rfl : m.clearOutput.distances = T := hleft.distances
  obtain rfl : m'.clearOutput.distances = T' := hleft.distances'
  exact {
    result := rfl
    errors := herrors
    output := h.output
    globals := ⟨W, hleft, hleft.global?⟩
    kinds := fun name => map_eq_of_rel (hleft.global? name) fun _ _ hv => hv.kind
    texts := fun name => map_eq_of_rel (hleft.global? name) fun _ _ hv => hv.text }

namespace Session

variable {s s' : Session} {program lowered : List Stmt} {fuel fuel' : Nat} {pace : Pace}

/-- Two runs that went on abreast end alike, if the one that may not be the deeper one did not reach
its bound. -/
theorem endsAlike_execute {T T' : Distances} {W : Pairing}
    (h : Ends T T' pace W 0 0 (fun _ => Eq) (executeAll fuel program (s.learned program))
      (executeAll fuel' lowered (s'.learned lowered)))
    (hquiet : (resolve program).hasError = false) (hquiet' : (resolve lowered).hasError = false)
    (hends : pace = .ahead → (s.execute program fuel).1.result ≠ .outOfFuel)
    (hends' : pace = .behind → (s'.execute lowered fuel').1.result ≠ .outOfFuel) :
    EndsAlike (s.execute program fuel) (s'.execute lowered fuel') := by
  have hwarnings := errors_reports_eq_nil hquiet
  have hwarnings' := errors_reports_eq_nil hquiet'
  unfold execute at hends hends' ⊢
  generalize hx : executeAll fuel program (s.learned program) = r,
    hy : executeAll fuel' lowered (s'.learned lowered) = r' at h
  cases h with
  | ok _ hj _ =>
    rw [perform_of_ok hx, perform_of_ok hy]
    exact .of_joins hj (hwarnings'.trans hwarnings.symm)
  | failure _ hj =>
    rw [perform_of_failure hx, perform_of_failure hy]
    refine .of_joins hj ?_
    rw [List.filter_append, List.filter_append]
    exact congrArg (· ++ _) (hwarnings'.trans hwarnings.symm)
  | original hp =>
    rw [perform_of_outOfFuel hx] at hends
    exact absurd rfl (hends hp)
  | lowered hp =>
    rw [perform_of_outOfFuel hy] at hends'
    exact absurd rfl (hends' hp)

/-! ## Programs and their while forms -/

/-- **A program and its while form end alike in new sessions**, if the one that may not be the
deeper one does not reach its bound. -/
theorem execute_lowered {clock : Nat → Float} {next next' : ExprId}
    (hl : Stmt.LowersAll program lowered) (hr : ∀ s ∈ program, s.Regular)
    (hn : (Stmt.idsAll program).Nodup) (hquiet : (resolve program).hasError = false)
    (hf : pace.Allows 0 fuel fuel')
    (hends : pace = .ahead →
      (execute ⟨(start clock).machine, next⟩ program fuel).1.result ≠ .outOfFuel)
    (hends' : pace = .behind →
      (execute ⟨(start clock).machine, next'⟩ lowered fuel').1.result ≠ .outOfFuel) :
    EndsAlike (execute ⟨(start clock).machine, next⟩ program fuel)
      (execute ⟨(start clock).machine, next'⟩ lowered fuel') := by
  have hlearned (distances : Distances) (id : ExprId) :
      ((∅ : Distances) ∪ distances)[id]? = distances[id]? := by
    rw [Std.TreeMap.getElem?_union, Std.TreeMap.getElem?_emptyc, Option.or_none]
  have hmatches := matches_of_lowers hl hr hn hquiet (hlearned _) (hlearned _)
  have habreast := abreast_executeAll hf (W := Pairing.globals) ⟨rfl, rfl, rfl⟩ hmatches
  exact endsAlike_execute (habreast _ (le_refl _) _ _ (Pairing.joins_start clock _ _)) hquiet
    (hasError_of_lowers hl hr hquiet) hends hends'

/-- The program of a text and its while form, submitted to a new session, do the same. -/
structure LoweringAgrees (clock : Nat → Float) (source : String) (lowered : List Stmt) : Prop where
  quiet : (resolve lowered).hasError = false
  terminates : (∃ fuel, ((start clock).run source fuel).1.result ≠ .outOfFuel) ↔
    ∃ fuel, ((start clock).submit lowered fuel).1.result ≠ .outOfFuel
  alike : ∀ fuel fuel', ((start clock).run source fuel).1.result ≠ .outOfFuel →
    ((start clock).submit lowered fuel').1.result ≠ .outOfFuel →
    EndsAlike ((start clock).run source fuel) ((start clock).submit lowered fuel')

/-- **A program without static problems and its while form do the same**, whichever of its `for`
statements are replaced: one run ends if and only if the other one does, with the same outcome,
the same error, the same printed text and corresponding globals. -/
theorem lowering_agrees (clock : Nat → Float) (source : String) (lowered : List Stmt)
    (hclean : (parse source 0).clean = true)
    (hquiet : (resolve (parse source 0).tree).hasError = false)
    (hl : Stmt.LowersAll (parse source 0).tree lowered) : LoweringAgrees clock source lowered := by
  have hr := regular_parse source 0
  have hn := (numbered_parse source 0).2.nodup
  have hquiet' := hasError_of_lowers hl hr hquiet
  have hrun (fuel : Nat) : (start clock).run source fuel =
      execute ⟨(start clock).machine, (parse source 0).nextId⟩ (parse source 0).tree fuel :=
    (run_eq_submit hclean).trans (submit_of_quiet hquiet)
  have hsubmit (fuel : Nat) : (start clock).submit lowered fuel =
      (start clock).execute lowered fuel := submit_of_quiet hquiet'
  -- with four times the depth the while form never stops before the program does
  have hahead {fuel fuel' : Nat} (hf : Pace.ahead.Allows 0 fuel fuel')
      (hends : ((start clock).run source fuel).1.result ≠ .outOfFuel) :
      EndsAlike ((start clock).run source fuel) ((start clock).submit lowered fuel') := by
    rw [hrun] at hends ⊢
    rw [hsubmit]
    exact execute_lowered hl hr hn hquiet hf (fun _ => hends) nofun
  -- with the same depth the program never stops before the while form does
  have hbehind {fuel : Nat} (hf : Pace.behind.Allows 0 fuel fuel)
      (hends : ((start clock).submit lowered fuel).1.result ≠ .outOfFuel) :
      EndsAlike ((start clock).run source fuel) ((start clock).submit lowered fuel) := by
    rw [hsubmit] at hends ⊢
    rw [hrun]
    exact execute_lowered hl hr hn hquiet hf nofun fun _ => hends
  refine ⟨hquiet', ⟨?_, ?_⟩, ?_⟩
  · rintro ⟨fuel, hends⟩
    have halike : EndsAlike ((start clock).run source fuel)
        ((start clock).submit lowered (4 * fuel)) := hahead (Nat.le_refl _) hends
    exact ⟨4 * fuel, halike.result ▸ hends⟩
  · rintro ⟨fuel, hends⟩
    exact ⟨fuel, (hbehind (Nat.le_refl _) hends).result ▸ hends⟩
  · intro fuel fuel' hends hends'
    have hdeeper : (start clock).submit lowered (max (4 * fuel) fuel') =
        (start clock).submit lowered fuel' := by
      rw [hsubmit] at hends' ⊢
      rw [hsubmit]
      exact execute_of_le (Nat.le_max_right _ _) hends'
    rw [← hdeeper]
    exact hahead (Nat.le_max_left _ _) hends

/-- A function that the body declares prints the variable of the loop behind the last increment. -/
theorem lowering_agrees_closure :
    ((start fun _ => 0).submit (Stmt.lowerAll (parse
        "var g; for (var b = true; b; b = nil) \x7b fun f() \x7b print b; \x7d g = f; \x7d g();"
        0).tree) 20).1.output = "nil\n" ∧
      LoweringAgrees (fun _ => 0)
        "var g; for (var b = true; b; b = nil) \x7b fun f() \x7b print b; \x7d g = f; \x7d g();"
        (Stmt.lowerAll (parse
          "var g; for (var b = true; b; b = nil) \x7b fun f() \x7b print b; \x7d g = f; \x7d g();"
          0).tree) :=
  ⟨by decide +kernel, lowering_agrees _ _ _ (by decide +kernel) (by decide +kernel)
    (Stmt.lowersAll_lowerAll _)⟩

end Session

end Lox
