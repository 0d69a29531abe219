import Lox.Proofs.Binding.Fewer
import Lox.Proofs.Session.Replay
import Lox.Proofs.Syntax.Joined

/-!
# Programs in pieces

A program may be submitted in two pieces, one after the other. In a single submission the second
piece finds the names of the first one at distances that lead to the outermost scope. Submitted alone
it has no distances for them, and they are looked up among the globals.

* `Task.perform_append`: a program behind one that succeeds;
* `Session.launch?_pieces`: what both ways of submitting set going;
* `Machine.Alike`: machines that tell of the same values;
* `Session.PiecesAgree`: both ways do the same;
* **`Session.pieces_agree`**: they always do.
-/

namespace Lox

/-! ## Programs behind one another -/

theorem Session.executeAll_append (fuel : Nat) (ss ts : List Stmt) :
    executeAll fuel (ss ++ ts) = executeAll fuel ss >>= fun _ => executeAll fuel ts := by
  induction ss with
  | nil => rfl
  | cons s rest ih =>
    rw [List.cons_append, executeAll, ih, executeAll, bind_assoc]

theorem Outcome.ofResult_bind_pure {α β : Type} (x : Eval α) (b : β) (m : Machine) :
    ofResult ((x >>= fun _ => pure b : Eval β) m) = ofResult (x m) := by
  cases hx : x m with
  | ok a m' => rw [bind_of_ok hx]; rfl
  | error e m' => rw [bind_of_error hx]; cases e <;> rfl

theorem Eval.leaves_of_eq {α : Type} {x y : Eval α} {m m' : Machine} (h : x m = y m') :
    x.leaves m = y.leaves m' := by
  unfold leaves
  rw [h]

/-- **Behind a program that succeeds another one goes on in the machine that it left.** -/
theorem Task.perform_append {fuel : Nat} {ss : List Stmt} {m : Machine}
    (h : Outcome.ofResult ((Task.program fuel ss).perform m) = .completed) (ts : List Stmt) :
    (Task.program fuel (ss ++ ts)).perform m =
      (Task.program fuel ts).perform ((Task.program fuel ss).perform.leaves m) := by
  have hss : (Task.program fuel ss).perform = Session.executeAll fuel ss >>= fun _ => pure none := rfl
  rw [hss, Outcome.ofResult_bind_pure] at h
  rw [hss, Session.leaves_bind_pure, perform, perform, Session.executeAll_append, bind_assoc]
  unfold Eval.leaves
  cases hx : Session.executeAll fuel ss m with
  | ok a m' => rw [bind_of_ok hx]
  | error e m' =>
    rw [hx] at h
    cases e <;> cases h

theorem Machine.output_append {m m₁ m₂ : Machine} (h : m.printed = m₁.printed ++ m₂.printed) :
    m.output = m₁.output ++ m₂.output := by
  rw [output, h, Array.toList_append, String.join_append]
  rfl

/-! ## Machines that tell of the same values -/

/-- Places and distances are forgotten. -/
def Replica.bare : Replica := ⟨.nowhere, ∅, #[]⟩

/-- The machines differ at most in where the text of their functions stands and in the distances that
they know: the same scopes bind the same names to alike values, and the same instances have alike
fields. -/
def Machine.Alike (m m' : Machine) : Prop := m.replica .bare = m'.replica .bare

theorem Machine.global?_replica (g : Replica) (m : Machine) (name : String) :
    (m.replica g).global? name = (m.global? name).map (Value.relocate g.places) :=
  Scopes.getAt_map _ _ _ _ _

namespace Machine.Alike

variable {m m' : Machine}

theorem of_replica {g g' : Replica} (h : m.replica g = m'.replica g') (hg : g.places = .nowhere)
    (hg' : g'.places = .nowhere) : m.clearOutput.Alike m'.clearOutput := by
  obtain ⟨places, distances, printed⟩ := g
  obtain ⟨places', distances', printed'⟩ := g'
  cases hg
  cases hg'
  exact congrArg (fun m : Machine => { m with distances := ∅, printed := #[] }) h

theorem global? (h : m.Alike m') (name : String) :
    (m.global? name).map (Value.relocate .nowhere) = (m'.global? name).map (Value.relocate .nowhere) := by
  have hname := congrArg (Machine.global? · name) h
  rwa [Machine.global?_replica, Machine.global?_replica] at hname

theorem view {α : Type} {f : Value → α} (h : m.Alike m') (hf : ∀ v, f (v.relocate .nowhere) = f v)
    (name : String) : (m.global? name).map f = (m'.global? name).map f := by
  have hname := congrArg (Option.map f) (h.global? name)
  have hview : f ∘ Value.relocate .nowhere = f := funext hf
  rwa [Option.map_map, Option.map_map, hview] at hname

end Machine.Alike

/-! ## Two pieces -/

namespace Session

variable {s : Session} {first second source : String} {fuel : Nat}

theorem launch?_of_clean (h : (parse source s.nextId).clean = true)
    (herr : (resolve (parse source s.nextId).tree).hasError = false) :
    s.launch? (.run source fuel) = some (.program fuel (parse source s.nextId).tree) := by
  simp [launch?, h, herr]

/-- What a submission tells of the task that it sets going. -/
theorem run_of_launch {task : Task} (h : s.launch? (.run source fuel) = some task) :
    (s.run source fuel).1.result = Outcome.ofResult (task.perform (s.learned task.tree)) ∧
      (s.run source fuel).1.output = (task.perform.leaves (s.learned task.tree)).output := by
  have hl := after_of_launch h
  have hclean : (parse source s.nextId).clean = true := hl.clean
  have herr : (resolve (parse source s.nextId).tree).hasError = false := by
    have herr := hl.noError
    rwa [hl.tree] at herr
  obtain rfl := Option.some.inj ((launch?_of_clean hclean herr).symm.trans h)
  have hperform : (Task.program fuel (parse source s.nextId).tree).perform =
      executeAll fuel (parse source s.nextId).tree >>= fun _ => pure none := rfl
  rw [run_of_clean hclean herr, hperform, leaves_bind_pure, Outcome.ofResult_bind_pure, Task.tree]
  unfold Eval.leaves
  cases hx : executeAll fuel (parse source s.nextId).tree (s.learned (parse source s.nextId).tree) with
  | ok a m => rw [perform_of_ok hx]; exact ⟨rfl, rfl⟩
  | error e m =>
    cases e with
    | failure f => rw [perform_of_failure hx]; exact ⟨rfl, rfl⟩
    | outOfFuel => rw [perform_of_outOfFuel hx]; exact ⟨rfl, rfl⟩

/-- **Both ways of submitting two pieces set the same text going**, which stands elsewhere for the
second piece. -/
theorem launch?_pieces (hfirst : (s.run first fuel).1.result ≠ .staticError)
    (hjoin : (s.run (first ++ "\n" ++ second) fuel).1.result ≠ .staticError)
    (helse : ∀ t ∈ (tokens second).head?, t.terminal ≠ .keyword .else) :
    ∃ r ss ts, s.launch? (.run first fuel) = some (.program fuel ss) ∧
      (s.run first fuel).2.launch? (.run second fuel) = some (.program fuel ts) ∧
      s.launch? (.run (first ++ "\n" ++ second) fuel) =
        some (.program fuel (ss ++ Stmt.relocateAll r ts)) := by
  have hfirst := launch?_run hfirst
  have hjoin := launch?_run hjoin
  have hl := after_of_launch hfirst
  have hl' := after_of_launch hjoin
  have hnext : (s.run first fuel).2.nextId = (parse first s.nextId).nextId :=
    nextId_after s (.run first fuel)
  have hsecond := clean_of_join (k := (parse first s.nextId).nextId) hl.clean hl'.clean helse
  obtain ⟨r, -, htree, -⟩ := parse_join hl.clean hsecond
  have herr := hl'.noError
  rw [Task.tree, htree] at herr
  have hquiet := noError_of_append r (regular_parse first s.nextId)
    (numbered_parse first s.nextId).2.nodup herr
  rw [htree] at hjoin
  rw [← hnext] at hsecond hquiet hjoin
  exact ⟨r, _, _, hfirst, launch?_of_clean hsecond hquiet, hjoin⟩

section Runs

variable {known : List (Site × Mark)} {o : Origins} {r : Relocation} {ss ts : List Stmt}

/-- **The second piece alone comes as far as it does behind the first one, and leaves the same
machine**: both runs are runs of one text without places. -/
theorem Legal.pieces (h : s.Legal known o) (hglobals : s.machine.globals = 0)
    (hfirst : s.launch? (.run first fuel) = some (.program fuel ss))
    (hsecond : (s.run first fuel).2.launch? (.run second fuel) = some (.program fuel ts))
    (hjoin : s.launch? (.run (first ++ "\n" ++ second) fuel) =
      some (.program fuel (ss ++ Stmt.relocateAll r ts)))
    (hdone : Outcome.ofResult ((Task.program fuel ss).perform (s.learned ss)) = .completed)
    {m : Machine} (hleft : (Task.program fuel ss).perform.leaves (s.learned ss) = m) :
    ∃ distances, Outcome.ofResult ((Task.program fuel ts).perform ((s.run first fuel).2.learned ts)) =
        Outcome.ofResult ((Task.program fuel (ss ++ Stmt.relocateAll r ts)).perform
          (s.learned (ss ++ Stmt.relocateAll r ts))) ∧
      ((Task.program fuel ts).perform.leaves ((s.run first fuel).2.learned ts)).replica
          ⟨.nowhere, distances, m.printed⟩ =
        ((Task.program fuel (ss ++ Stmt.relocateAll r ts)).perform.leaves
          (s.learned (ss ++ Stmt.relocateAll r ts))).replica ⟨.nowhere, distances, #[]⟩ := by
  obtain ⟨o₁, -, h₁, -⟩ := h.after (.run first fuel) permits_all
  have hsites : s.sites (.run first fuel) = programSites ss := by
    rw [sites, hfirst]
    rfl
  rw [hsites] at h₁
  -- the table of the single submission reaches all marks
  let distances := s.machine.distances ∪ (resolve (ss ++ Stmt.relocateAll r ts)).distances
  let whole : Replica := ⟨.nowhere, distances, #[]⟩
  let behind : Replica := ⟨.nowhere, distances, m.printed⟩
  have hall : ∀ x ∈ known ++ programSites (ss ++ Stmt.relocateAll r ts), x.2.Legal distances x.1 :=
    h.legal_launched (after_of_launch hjoin) fun _ _ => rfl
  obtain ⟨names, happend⟩ := programSites_append r ss ts
  have hold : ∀ x ∈ known ++ programSites ss, x.2.Reached distances x.1 := by
    intro x hx
    refine (hall x ?_).reached
    rw [happend, ← List.append_assoc]
    exact List.mem_append_left _ hx
  have halone : ∀ x ∈ programSites ts, x.2.Legal ((s.run first fuel).2.learned ts).distances x.1 :=
    fun x hx => h₁.legal_launched (after_of_launch hsecond) (fun _ _ => rfl) x
      (List.mem_append_right _ hx)
  have hnew : ∀ x ∈ programSites ts, x.2.Reached distances x.1 :=
    reached_of_append (fun x hx => hall x (List.mem_append_right _ hx)) halone
  -- what the three submissions do, the text without places does as well
  obtain ⟨hresult₁, hleaves₁⟩ := h.replay hfirst whole hold hglobals
  obtain ⟨hresult, hleaves⟩ := h.replay hjoin whole (fun x hx => (hall x hx).reached) hglobals
  obtain ⟨hresult₂, hleaves₂⟩ := h₁.replay hsecond behind
    (fun x hx => (List.mem_append.mp hx).elim (hold x) (hnew x))
    ((s.place_after (.run first fuel)).2.trans hglobals)
  have hbetween : ((s.run first fuel).2.learned ts).replica behind = m.replica whole := by
    have hmachine : (s.run first fuel).2.machine = m.clearOutput :=
      hleft ▸ (after_of_launch hfirst).machine
    unfold learned
    rw [hmachine]
    simp [Machine.replica, Machine.addDistances, Machine.clearOutput, whole, behind]
  have hgo : ((Task.program fuel (ss ++ Stmt.relocateAll r ts)).relocate .nowhere).perform
      ((s.learned (ss ++ Stmt.relocateAll r ts)).replica whole) =
        ((Task.program fuel ts).relocate .nowhere).perform
          (((s.run first fuel).2.learned ts).replica behind) := by
    have hleaves₁ : ((Task.program fuel ss).relocate .nowhere).perform.leaves
        ((s.learned ss).replica whole) = m.replica whole := hleft ▸ hleaves₁
    rw [hbetween, ← hleaves₁, Task.relocate, Stmt.relocateAll_append, Stmt.relocateAll_nowhere]
    exact Task.perform_append (hresult₁.trans hdone) _
  exact ⟨distances, hresult₂.symm.trans ((congrArg Outcome.ofResult hgo.symm).trans hresult),
    hleaves₂.symm.trans ((Eval.leaves_of_eq hgo.symm).trans hleaves)⟩

end Runs

/-- To submit two pieces one after the other is to submit them at once. -/
structure PiecesAgree (s : Session) (first second : String) (fuel : Nat) : Prop where
  result : ((s.run first fuel).2.run second fuel).1.result =
    (s.run (first ++ "\n" ++ second) fuel).1.result
  output : (s.run first fuel).1.output ++ ((s.run first fuel).2.run second fuel).1.output =
    (s.run (first ++ "\n" ++ second) fuel).1.output
  /-- Scopes and objects correspond, by their numbers. -/
  machine : ((s.run first fuel).2.run second fuel).2.machine.Alike
    (s.run (first ++ "\n" ++ second) fuel).2.machine
  /-- The globals are the same values, but for the places of functions in the text. -/
  globals : ∀ name, (((s.run first fuel).2.run second fuel).2.global? name).map (Value.relocate .nowhere) =
    ((s.run (first ++ "\n" ++ second) fuel).2.global? name).map (Value.relocate .nowhere)
  kinds : ∀ name, (((s.run first fuel).2.run second fuel).2.global? name).map Value.kind =
    ((s.run (first ++ "\n" ++ second) fuel).2.global? name).map Value.kind
  texts : ∀ name, (((s.run first fuel).2.run second fuel).2.global? name).map Value.text =
    ((s.run (first ++ "\n" ++ second) fuel).2.global? name).map Value.text

/-- **Submitting a program in two pieces is the same as submitting it at once**, as long as the
first piece is completed, the whole has no static error and no `else` stands between the pieces.
-/
theorem pieces_agree (clock : Nat → Float) (calls : List Call) (first second : String) (fuel : Nat)
    (hfirst : (((start clock).afterAll calls).run first fuel).1.result = .completed)
    (hjoin : (((start clock).afterAll calls).run (first ++ "\n" ++ second) fuel).1.result ≠
      .staticError)
    (helse : ∀ t ∈ (tokens second).head?, t.terminal ≠ .keyword .else) :
    ((start clock).afterAll calls).PiecesAgree first second fuel := by
  obtain ⟨known, o, hlegal⟩ := exists_legal clock calls
  have hglobals := globals_afterAll clock calls
  generalize (start clock).afterAll calls = s at *
  obtain ⟨r, ss, ts, hP, hQ, hJ⟩ := launch?_pieces (by rw [hfirst]; nofun) hjoin helse
  obtain ⟨hresult, houtput⟩ := run_of_launch hP
  obtain ⟨hresult₂, houtput₂⟩ := run_of_launch hQ
  obtain ⟨hresult', houtput'⟩ := run_of_launch hJ
  obtain ⟨distances, hends, hleaves⟩ := hlegal.pieces hglobals hP hQ hJ (hresult.symm.trans hfirst) rfl
  have hmachine : ((s.run first fuel).2.run second fuel).2.machine.Alike
      (s.run (first ++ "\n" ++ second) fuel).2.machine := by
    have hleft : ((s.run first fuel).2.run second fuel).2.machine = _ := (after_of_launch hQ).machine
    have hleft' : (s.run (first ++ "\n" ++ second) fuel).2.machine = _ := (after_of_launch hJ).machine
    rw [hleft, hleft']
    exact .of_replica hleaves rfl rfl
  refine ⟨hresult₂.trans (hends.trans hresult'.symm), ?_, hmachine, hmachine.global?,
    hmachine.view (Value.kind_relocate _), hmachine.view (Value.text_relocate _)⟩
  rw [houtput, houtput₂, houtput']
  have hprinted := (congrArg Machine.printed hleaves).trans Array.empty_append
  exact (Machine.output_append hprinted.symm).symm

/-- A block of the second piece assigns to a variable of the first one, and calls functions of the
first one and of an earlier submission. -/
theorem pieces_agree_assignment :
    (((start fun _ => 0).afterAll [.run "fun g() \x7b return true; \x7d" 20]).run
        "var a = nil; fun f() \x7b return a; \x7d\n\x7b a = f() or g(); \x7d print a;" 20).1.output =
      "true\n" ∧
    ((start fun _ => 0).afterAll [.run "fun g() \x7b return true; \x7d" 20]).PiecesAgree
      "var a = nil; fun f() \x7b return a; \x7d" "\x7b a = f() or g(); \x7d print a;" 20 :=
  ⟨by decide +kernel, pieces_agree _ _ _ _ _ (by decide +kernel) (by decide +kernel) (by decide +kernel)⟩

end Session

end Lox
