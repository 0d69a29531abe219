import Lox.Proofs.Machine.InStepRun
import Lox.Proofs.Session.Pieces

/-!
# A program with another name in new sessions

A program is submitted to a new session, and with another name for one of its symbols to another one.

* `Session.printed`: the lines that a submission prints;
* `Renamed.outset`: what is known before anything runs, `Renamed.joins_start`: the machines of two new
  sessions;
* `Renamed.Ends.alike`: runs that are in step come equally far and print equally many lines;
* `Respelling.Renames.runs`: the two programs and the distances that new sessions learn for them;
* **`Respelling.Renames.run_eq`**: so do the programs of a text and of one with another name in it.
-/

namespace Lox

/-! ## Lines -/

namespace Session

/-- The lines that a submission prints. -/
def printed (s : Session) (source : String) (fuel : Nat) : Array String :=
  match s.launch? (.run source fuel) with
  | some task => (task.perform.leaves (s.learned task.tree)).printed
  | none => #[]

variable {s : Session} {source : String} {fuel : Nat}

theorem run_of_noError (fuel : Nat) (hclean : (parse source s.nextId).clean = true)
    (herr : (resolve (parse source s.nextId).tree).hasError = false) :
    (s.run source fuel).1.result = Outcome.ofResult
        (executeAll fuel (parse source s.nextId).tree (s.learned (parse source s.nextId).tree)) ∧
      s.printed source fuel = ((executeAll fuel (parse source s.nextId).tree).leaves
        (s.learned (parse source s.nextId).tree)).printed := by
  have hlaunch : s.launch? (.run source fuel) =
      some (.program fuel (parse source s.nextId).tree) := launch?_of_clean hclean herr
  have hperform : (Task.program fuel (parse source s.nextId).tree).perform =
      executeAll fuel (parse source s.nextId).tree >>= fun _ => pure none := rfl
  constructor
  · rw [(run_of_launch hlaunch).1, hperform, Outcome.ofResult_bind_pure, Task.tree]
  · rw [printed, hlaunch]
    dsimp only
    rw [hperform, leaves_bind_pure, Task.tree]

/-- A new session knows the distances of its program alone. -/
theorem distances_learned_start (clock : Nat → Float) (program : List Stmt) (id : ExprId) :
    ((start clock).learned program).distances[id]? = (resolve program).distances[id]? := by
  have hunion : ((start clock).learned program).distances = ∅ ∪ (resolve program).distances := rfl
  rw [hunion, Std.TreeMap.getElem?_union, Std.TreeMap.getElem?_emptyc, Option.or_none]

end Session

/-! ## New sessions -/

namespace Renamed

/-- In the beginning it is known whether the globals declare the symbol. -/
def outset (g : Renamed) : Knowledge := fun fact =>
  fact = if g.owns .top then .owned 0 else .apart 0

variable (g : Renamed)

theorem stands_start : g.Stands g.outset Site.start.frames 0 := by
  refine .top ⟨fun ho => ?_, fun ho => ?_, nofun⟩
  · rw [outset, show g.owns .top = false from ho]
    rfl
  · rw [outset, show g.owns .top = true from ho]
    rfl

theorem not_held_outset (scope : ScopeId) : ¬ g.outset (.held scope) := by
  unfold outset
  split <;> exact nofun

theorem consistent_outset : g.outset.Consistent := by
  refine ⟨fun ho ha => ?_, fun hh => ?_⟩
  · cases ho.trans ha.symm
  · exact absurd hh (g.not_held_outset _)

variable (clock : Nat → Float)

theorem links_start : g.Links g.outset (Session.start clock).machine.scopes
    (Session.start clock).machine.scopes where
  size := rfl
  parent _ := rfl
  lt_size := by
    rintro fact rfl
    rw [Session.size_start]
    split <;> exact Nat.one_pos
  within := by
    intro scope outer hfact
    rw [outset] at hfact
    split at hfact <;> cases hfact
  consistent := g.consistent_outset
  own := by
    -- only a native is bound, under the same name in both sessions
    intro scope name name' hb
    obtain rfl : name = name' := by
      cases hb with
      | other | apart => rfl
      | held hh => exact absurd hh (g.not_held_outset _)
    cases hv : (Session.start clock).machine.scopes.own? scope name with
    | none => exact .none
    | some v =>
      rw [(Session.own?_start hv).2]
      exact .some (.native _)

theorem joins_start {program program' : List Stmt}
    (hd : ((Session.start clock).learned program).distances = g.distances)
    (hd' : ((Session.start clock).learned program').distances = g.distances') :
    g.Joins g.outset 0 ((Session.start clock).learned program)
      ((Session.start clock).learned program') where
  links := g.links_start clock
  size := rfl
  fields _ := .none
  current := rfl
  current' := rfl
  globals := rfl
  globals' := rfl
  distances := hd
  distances' := hd'
  nextObject := rfl
  printed := rfl
  printer := rfl
  writes := rfl
  clock := rfl
  readings := rfl

variable {g}

/-- Runs that are in step come equally far and print equally many lines. -/
theorem Ends.alike {K : Knowledge} {i : ScopeId} {α β : Type} {R : Knowledge → α → β → Prop}
    {x : Eval α} {y : Eval β} {m m' : Machine} (h : g.Ends K i R (x m) (y m')) :
    Outcome.ofResult (y m') = Outcome.ofResult (x m) ∧
      (y.leaves m').printed.size = (x.leaves m).printed.size := by
  unfold Eval.leaves
  generalize x m = r, y m' = r' at h
  cases h with
  | ok _ hj _ => exact ⟨rfl, hj.printed⟩
  | error _ hj he => cases he <;> exact ⟨rfl, hj.printed⟩

end Renamed

/-! ## Texts -/

theorem Site.Agrees.congr {r : Respelling} {program : List Stmt} {distances distances' : Distances}
    {x : Site × Mark} (h : Site.Agrees r program distances x)
    (hd : ∀ id : ExprId, distances'[id]? = distances[id]?) : Site.Agrees r program distances' x where
  regions := h.regions
  hosts := h.hosts
  finds use huse := by
    obtain ⟨hfits, hpicked, hother⟩ := h.finds use huse
    exact ⟨hfits, hd use.id ▸ hpicked, hd use.id ▸ hother⟩

namespace Respelling.Renames

variable {r : Respelling} {source source' : String} {d : Definition} (clock : Nat → Float)

/-- A program and the one with another name, with the distances that new sessions learn for them. -/
def runs {program : List Stmt} (h : r.Renames source program d)
    (ho' : Orderly (Stmt.respellAll r program)) : Renamed where
  respelling := r
  program := program
  distances := ((Session.start clock).learned program).distances
  distances' := ((Session.start clock).learned (Stmt.respellAll r program)).distances
  agrees x hx := (h.agrees hx).congr (Session.distances_learned_start clock program)
  same x hx use huse := by
    rw [Session.distances_learned_start, Session.distances_learned_start, h.distance_eq ho' hx huse]
  words := h.old_ne_spelling

/-- **The program with another name comes as far and prints as many lines.** -/
theorem run_eq (h : r.Renames source (parse source 0).tree d)
    (hclean : (parse source' 0).clean = true)
    (htree : (parse source' 0).tree = Stmt.respellAll r (parse source 0).tree) (fuel : Nat) :
    (resolve (parse source' 0).tree).hasError = false ∧
      ((Session.start clock).run source' fuel).1.result =
        ((Session.start clock).run source fuel).1.result ∧
      ((Session.start clock).printed source' fuel).size =
        ((Session.start clock).printed source fuel).size := by
  have ho' : Orderly (Stmt.respellAll r (parse source 0).tree) := htree ▸ orderly_parse source' 0
  have hquiet : (resolve (parse source' 0).tree).hasError = false := by
    rw [htree]
    exact noError_respell h.orderly ho' (fun _ => h.fits_word) h.noError
  obtain ⟨hresult, hprinted⟩ := Session.run_of_noError (s := .start clock) fuel h.clean h.noError
  obtain ⟨hresult', hprinted'⟩ := Session.run_of_noError (s := .start clock) fuel hclean hquiet
  have hinstep := Renamed.inStep_executeAll (g := h.runs clock ho') fuel
    (h.runs clock ho').stands_start (List.Subset.refl (programSites (parse source 0).tree))
  have halike := (hinstep _ (le_refl _) _ _
    ((h.runs clock ho').joins_start clock rfl rfl)).alike
  rw [hresult, hprinted, hresult', hprinted']
  have hnext : (Session.start clock).nextId = 0 := rfl
  rw [hnext, htree]
  exact ⟨htree ▸ hquiet, halike⟩

end Respelling.Renames

end Lox
