import Lox.Proofs.Machine.Follow
import Lox.Proofs.Machine.Respelled

/-!
# Runs in step

A program and the same program with another name for one of its symbols do the same at every step, in
the same scopes and with the same bound on their depth.

* `Renamed.Ends`, `Renamed.InStep`: two actions end alike wherever they begin alike;
* **`Renamed.InStep.bind`**, `Renamed.InStep.within`, …: actions made up of parts that are in step;
* `Renamed.inStep_openScope`, **`Renamed.inStep_declare`**, …: single steps;
* **`Renamed.inStep_read`**, `Renamed.inStep_assign`: reading and writing variables.
-/

namespace Lox.Renamed

section Definitions

variable (g : Renamed) (K : Knowledge) (scope : ScopeId) {α β : Type}

/-- Two actions ended with corresponding values, or both failed or reached their bound. -/
inductive Ends (R : Knowledge → α → β → Prop) :
    EStateM.Result Interrupt Machine α → EStateM.Result Interrupt Machine β → Prop where
  | ok {K₁ a b m m'} : K ≤ K₁ → g.Joins K₁ scope m m' → R K₁ a b → Ends R (.ok a m) (.ok b m')
  | error {K₁ e e' m m'} : K ≤ K₁ → g.Joins K₁ scope m m' → e.Alike e' →
      Ends R (.error e m) (.error e' m')

/-- Two actions end alike wherever they begin alike. -/
def InStep (R : Knowledge → α → β → Prop) (x : Eval α) (y : Eval β) : Prop :=
  ∀ K₁, K ≤ K₁ → ∀ m m', g.Joins K₁ scope m m' → g.Ends K₁ scope R (x m) (y m')

end Definitions

section Laws

variable {g : Renamed} {K K₁ : Knowledge} {i : ScopeId} {α β γ δ : Type}
  {R : Knowledge → α → β → Prop} {S : Knowledge → γ → δ → Prop} {x : Eval α} {y : Eval β}

theorem Ends.mono {r : EStateM.Result Interrupt Machine α} {r' : EStateM.Result Interrupt Machine β}
    (h : g.Ends K₁ i R r r') (hK : K ≤ K₁) : g.Ends K i R r r' := by
  cases h with
  | ok h hj hab => exact .ok (hK.trans h) hj hab
  | error h hj he => exact .error (hK.trans h) hj he

namespace InStep

theorem mono (h : g.InStep K i R x y) (hK : K ≤ K₁) : g.InStep K₁ i R x y :=
  fun K₂ hK₂ => h K₂ (hK.trans hK₂)

theorem pure {a : α} {b : β} (h : ∀ K₁, K ≤ K₁ → R K₁ a b) :
    g.InStep K i R (Pure.pure a) (Pure.pure b) :=
  fun K₁ hK _ _ hj => .ok (le_refl K₁) hj (h K₁ hK)

theorem fail (problem problem' : RuntimeProblem) (place place' : Token) :
    g.InStep K i R (Eval.fail problem place) (Eval.fail problem' place') :=
  fun K₁ _ _ _ hj => .error (le_refl K₁) hj .failure

theorem outOfFuel : g.InStep K i R Eval.outOfFuel Eval.outOfFuel :=
  fun K₁ _ _ _ hj => .error (le_refl K₁) hj .outOfFuel

theorem imp {S : Knowledge → α → β → Prop} (h : g.InStep K i R x y)
    (hRS : ∀ K₁, K ≤ K₁ → ∀ a b, R K₁ a b → S K₁ a b) : g.InStep K i S x y := by
  intro K₁ hK m m' hj
  have hxy := h K₁ hK m m' hj
  generalize x m = r, y m' = r' at hxy
  cases hxy with
  | ok hK₂ hj₂ hab => exact .ok hK₂ hj₂ (hRS _ (hK.trans hK₂) _ _ hab)
  | error hK₂ hj₂ he => exact .error hK₂ hj₂ he

/-- **Parts that are in step make up actions that are.** -/
theorem bind {f : α → Eval γ} {f' : β → Eval δ} (h : g.InStep K i R x y)
    (hf : ∀ K₁, K ≤ K₁ → ∀ a b, R K₁ a b → g.InStep K₁ i S (f a) (f' b)) :
    g.InStep K i S (x >>= f) (y >>= f') := by
  intro K₁ hK m m' hj
  have hxy := h K₁ hK m m' hj
  generalize hx : x m = r, hy : y m' = r' at hxy
  cases hxy with
  | @ok K₂ a b m₁ m₁' hK₂ hj₂ hab =>
    rw [bind_of_ok hx, bind_of_ok hy]
    exact (hf K₂ (hK.trans hK₂) a b hab K₂ (le_refl K₂) m₁ m₁' hj₂).mono hK₂
  | error hK₂ hj₂ he =>
    rw [bind_of_error hx, bind_of_error hy]
    exact .error hK₂ hj₂ he

theorem get {f : Machine → Eval γ} {f' : Machine → Eval δ}
    (hf : ∀ K₁, K ≤ K₁ → ∀ m m', g.Joins K₁ i m m' → g.InStep K₁ i S (f m) (f' m')) :
    g.InStep K i S (MonadState.get >>= f) (MonadState.get >>= f') :=
  fun K₁ hK m m' hj => hf K₁ hK m m' hj K₁ (le_refl K₁) m m' hj

theorem within {scope : ScopeId} (h : g.InStep K scope R x y) :
    g.InStep K i R (Eval.within scope x) (Eval.within scope y) := by
  intro K₁ hK m m' hj
  have hxy := h K₁ hK _ _ (hj.move scope)
  unfold Eval.within
  generalize x { m with current := scope } = r, y { m' with current := scope } = r' at hxy
  have hback {K₂ : Knowledge} {m₂ m₂' : Machine} (hj₂ : g.Joins K₂ scope m₂ m₂') :
      g.Joins K₂ i { m₂ with current := m.current } { m₂' with current := m'.current } := by
    rw [hj.current, hj.current']
    exact hj₂.move i
  cases hxy with
  | ok hK₂ hj₂ hab => exact .ok hK₂ (hback hj₂) hab
  | error hK₂ hj₂ he => exact .error hK₂ (hback hj₂) he

theorem step (h : ∀ K₁, K ≤ K₁ → ∀ m m', g.Joins K₁ i m m' →
    ∃ K₂ a b m₁ m₁', K₁ ≤ K₂ ∧ x m = .ok a m₁ ∧ y m' = .ok b m₁' ∧ g.Joins K₂ i m₁ m₁' ∧ R K₂ a b) :
    g.InStep K i R x y := by
  intro K₁ hK m m' hj
  obtain ⟨K₂, a, b, m₁, m₁', hK₂, hx, hy, hj₂, hab⟩ := h K₁ hK m m' hj
  rw [hx, hy]
  exact .ok hK₂ hj₂ hab

theorem ofExcept {place place' : Token} {r r' : Except RuntimeProblem Value} (h : r' = r)
    (hplain : ∀ v, r = .ok v → v.Plain) :
    g.InStep K i (Value.Respells g) (Eval.ofExcept place r) (Eval.ofExcept place' r') := by
  subst h
  cases r' with
  | ok v => exact pure fun _ _ => (hplain v rfl).respells
  | error problem => exact fail problem problem place place'

end InStep

end Laws

/-! ## Single steps -/

section Steps

variable {g : Renamed} {K : Knowledge} {i scope : ScopeId} {frames : List Frame} {f : Frame}
  {name name' : String} {v v' : Value}

theorem inStep_openScope (hscope : K.Knows scope) (region : Region) :
    g.InStep K i
      (fun K inner inner' => inner' = inner ∧ K (.within inner scope) ∧ g.Shows K inner ⟨region, []⟩)
      (Eval.openScope scope) (Eval.openScope scope) := by
  refine .step fun K₁ hK m m' hj => ?_
  have hlinks := hj.links.opened (hj.links.lt_of_knows (hscope.mono hK)) region
  exact ⟨_, _, _, _, _, le_opened, rfl, rfl, hj.rescoped le_opened hlinks, hj.links.size,
    .inr (.inl rfl), shows_opened⟩

theorem inStep_define (hscope : K.Knows scope) (hb : g.Bound K scope name name')
    (hv : Value.Respells g K v v') :
    g.InStep K i (fun _ => Eq) (Eval.define scope name v) (Eval.define scope name' v') := by
  refine .step fun K₁ hK m m' hj => ⟨K₁, _, _, _, _, le_refl K₁, rfl, rfl, ?_, rfl⟩
  have hlt := hj.links.lt_of_knows (hscope.mono hK)
  exact hj.rescoped (le_refl K₁) (hj.links.defined hlt (hb.mono hK) (hv.mono hK))

/-- **A name is declared** in a scope. Behind it the name stands in the frame of the scope. -/
theorem inStep_declare {t : Token} (h : g.Shows K scope f)
    (hr : f.region.Agrees g.respelling g.program) (ht : t ∈ f.region.declarations g.program)
    (hv : ∀ K₁, K ≤ K₁ → g.Shows K₁ scope { f with names := t.lexeme :: f.names } →
      Value.Respells g K₁ v v') :
    g.InStep K i (fun K _ _ => g.Shows K scope { f with names := t.lexeme :: f.names })
      (Eval.define scope t.lexeme v) (Eval.define scope (t.respelled g.respelling) v') := by
  refine .step fun K₁ hK m m' hj => ?_
  have h₁ := h.mono hK
  have h₂ := h₁.declared hr ht
  have hlinks := hj.links.declared (hj.links.lt_of_knows h₁.knows) (h₁.declares hr ht)
    (hv _ (hK.trans le_declared) h₂)
  exact ⟨_, _, _, _, _, le_declared, rfl, rfl, hj.rescoped le_declared hlinks, h₂⟩

theorem inStep_word {region : Region} (h : g.Shows K scope ⟨region, []⟩) (k : Keyword)
    (hv : Value.Respells g K v v') :
    g.InStep K i (fun K _ _ => g.Shows K scope ⟨region, [k.spelling]⟩)
      (Eval.define scope k.spelling v) (Eval.define scope k.spelling v') := by
  have hword : g.Shows K scope ⟨region, [k.spelling]⟩ :=
    h.rename fun hmem => absurd (List.mem_singleton.mp hmem) (g.words k).1
  exact (inStep_define h.knows (bound_word k) hv).imp fun _ hK _ _ _ => hword.mono hK

theorem inStep_freshObject : g.InStep K i (fun _ => Eq) Eval.freshObject Eval.freshObject :=
  .step fun K₁ _ _ _ hj => ⟨K₁, _, _, _, _, le_refl K₁, rfl, rfl,
    { hj with nextObject := congrArg (· + 1) hj.nextObject }, hj.nextObject.symm⟩

theorem inStep_freshInstance {c c' : ClassObject} (hc : ClassObject.Respells g K c c') :
    g.InStep K i (Value.Respells g) (Eval.freshInstance c) (Eval.freshInstance c') :=
  .step fun K₁ hK _ _ hj => ⟨K₁, _, _, _, _, le_refl K₁, rfl, rfl, hj.instantiated,
    hj.size ▸ .instance _ (hc.mono hK)⟩

theorem inStep_setField (id : InstanceId) (name : String) (hv : Value.Respells g K v v') :
    g.InStep K i (fun _ => Eq) (Eval.setField id name v) (Eval.setField id name v') :=
  .step fun K₁ hK _ _ hj => ⟨K₁, _, _, _, _, le_refl K₁, rfl, rfl, hj.written id name (hv.mono hK),
    rfl⟩

theorem inStep_write (text text' : String) :
    g.InStep K i (fun _ => Eq) (Eval.write text) (Eval.write text') :=
  .step fun K₁ _ m m' hj => by
    have hanswer : m.printer m.writes = m'.printer m'.writes := by rw [hj.printer, hj.writes]
    refine ⟨K₁, _, _, _, _, le_refl K₁, rfl, rfl, { hj with printed := ?_, writes := ?_ }, hanswer⟩
    · show (m'.printed.push _).size = (m.printed.push _).size
      rw [Array.size_push, Array.size_push, hj.printed]
    · exact congrArg (· + 1) hj.writes

theorem inStep_print (line line' : String) :
    g.InStep K i (fun _ => Eq) (Eval.print line) (Eval.print line') := by
  refine (inStep_write _ _).bind fun K₁ _ answer answer' h => ?_
  subst h
  cases answer with
  | none => exact .pure fun _ _ => rfl
  | some refusal => exact fun K₂ _ _ _ hj => .error (le_refl K₂) hj .failure

theorem inStep_readClock :
    g.InStep K i (Value.Respells g) Eval.readClock Eval.readClock :=
  .step fun K₁ _ m m' hj => ⟨K₁, _, _, _, _, le_refl K₁, rfl, rfl,
    { hj with readings := congrArg (· + 1) hj.readings }, by
      rw [hj.clock, hj.readings]
      exact .number _⟩

end Steps

/-! ## Variables -/

section Variables

variable {g : Renamed} {K : Knowledge} {i : ScopeId} {x : Site × Mark} {use : Occurrence}
  (hs : g.Stands K x.1.frames i) (hx : x ∈ programSites g.program) (huse : use ∈ x.2.occurrence?)

include hs hx huse

/-- The same scope holds the bindings of an occurrence, and its spellings mean the same there. -/
theorem Joins.holder? {m m' : Machine} (hj : g.Joins K i m m') :
    Option.Rel (fun a a' => a' = a ∧ K.Knows a ∧
        g.Bound K a use.name.lexeme (use.name.respelled g.respelling))
      (m.holder? use) (m'.holder? (use.respell g.respelling)) := by
  have hfinds := (g.agrees x hx).finds use huse
  have hsame : g.distances'[(use.respell g.respelling).id]? = g.distances[use.id]? :=
    g.same x hx use huse
  have hlexeme : (use.respell g.respelling).name.lexeme = use.name.respelled g.respelling := rfl
  unfold Machine.holder?
  rw [hj.distances, hj.distances', hsame, hlexeme, hj.current, hj.current', hj.globals, hj.globals']
  cases hd : g.distances[use.id]? with
  | none =>
    obtain ⟨hknows, hb⟩ := hs.bound_globals hfinds hd
    dsimp only
    rw [Scopes.holder?_zero, Scopes.holder?_zero, hj.links.isSome_own? hb]
    split
    · exact .some ⟨rfl, hknows, hb⟩
    · exact .none
  | some distance =>
    dsimp only
    rw [Scopes.holderAt?, Scopes.holderAt?, hj.links.ancestor]
    cases ha : m.scopes.ancestor i distance with
    | none => exact .none
    | some a =>
      obtain ⟨hknows, hb⟩ := hs.bound_of_ancestor hfinds hj.links hd ha
      rw [Option.filter_some, Option.filter_some, hj.links.isSome_own? hb]
      split
      · exact .some ⟨rfl, hknows, hb⟩
      · exact .none

theorem inStep_locate :
    g.InStep K i (fun K a a' => a' = a ∧ K.Knows a ∧
        g.Bound K a use.name.lexeme (use.name.respelled g.respelling))
      (Eval.locate use) (Eval.locate (use.respell g.respelling)) := by
  refine .get fun K₁ hK m m' hj => ?_
  have hholder := hj.holder? (hs.mono hK) hx huse
  generalize m.holder? use = a, m'.holder? (use.respell g.respelling) = a' at hholder
  cases hholder with
  | none => exact .fail _ _ _ _
  | some ha => exact .pure fun K₂ hK₂ => ⟨ha.1, ha.2.1.mono hK₂, ha.2.2.mono hK₂⟩

/-- **A use is bound to corresponding values.** -/
theorem inStep_read :
    g.InStep K i (Value.Respells g) (Eval.read use) (Eval.read (use.respell g.respelling)) := by
  refine (inStep_locate hs hx huse).bind fun K₁ _ a a' ⟨ha, _, hb⟩ => .get fun K₂ hK₂ m m' hj => ?_
  subst ha
  have hown := hj.links.own (hb.mono hK₂)
  rw [show (use.respell g.respelling).name.lexeme = use.name.respelled g.respelling from rfl]
  generalize m.scopes.own? a' use.name.lexeme = v,
    m'.scopes.own? a' (use.name.respelled g.respelling) = v' at hown
  cases hown with
  | none => exact .fail _ _ _ _
  | some hv => exact .pure fun _ hK => hv.mono hK

theorem inStep_assign {v v' : Value} (hv : Value.Respells g K v v') :
    g.InStep K i (fun _ => Eq) (Eval.assign use v) (Eval.assign (use.respell g.respelling) v') := by
  refine (inStep_locate hs hx huse).bind fun K₁ hK a a' ⟨ha, hknows, hb⟩ => ?_
  subst ha
  exact inStep_define hknows hb (hv.mono hK)

end Variables

end Lox.Renamed
