import Lox.Proofs.Ensures
import Lox.Proofs.Machine.Mirror
import Lox.Proofs.Machine.Relocated
import Lox.Proofs.Machine.Watch

/-!
# Runs of a relocated program

A relocated program does at every step what the program itself does, as long as its table of distances
leads to the same bindings. A name without a distance is looked up among the globals; in the other
table it may have a distance that leads there.

* `Machine.Kept`: what stays while a program runs, `Interrupt.Alike`: runs that stop alike;
* `Replica.Finds`, `Activity.Agrees`: the tables lead to the same bindings;
* `Follows`: an action of the relocated program does what the action of the program does;
* `Follows.bind`, `Follows.within`, …: actions made up of parts that follow one another;
* `follows_read`, `follows_openScope`, …: single steps.
-/

namespace Lox

/-! ## What stays -/

/-- What stays while a program runs and comes back: where it stands, and where the scopes lie. -/
structure Machine.Kept (m m' : Machine) : Prop where
  size : m.scopes.size ≤ m'.scopes.size
  parent : ∀ k < m.scopes.size, m'.scopes.parent? k = m.scopes.parent? k
  current : m'.current = m.current
  globals : m'.globals = m.globals
  distances : m'.distances = m.distances

namespace Machine.Kept

variable {m m₁ m₂ : Machine}

theorem of_scopes_eq (hs : m₁.scopes = m.scopes) (hc : m₁.current = m.current)
    (hg : m₁.globals = m.globals) (hd : m₁.distances = m.distances) : m.Kept m₁ :=
  ⟨hs ▸ Nat.le_refl _, fun _ _ => hs ▸ rfl, hc, hg, hd⟩

theorem refl : m.Kept m := of_scopes_eq rfl rfl rfl rfl

theorem trans (h₁ : m.Kept m₁) (h₂ : m₁.Kept m₂) : m.Kept m₂ where
  size := Nat.le_trans h₁.size h₂.size
  parent := fun k hk =>
    (h₂.parent k (Nat.lt_of_lt_of_le hk h₁.size)).trans (h₁.parent k hk)
  current := h₂.current.trans h₁.current
  globals := h₂.globals.trans h₁.globals
  distances := h₂.distances.trans h₁.distances

theorem ancestor (h : m.Kept m₁) {k a : ScopeId} {d : Nat} (ha : m.scopes.ancestor k d = some a) :
    m₁.scopes.ancestor k d = some a := by
  induction d generalizing k with
  | zero => exact ha
  | succ d ih =>
    rw [Scopes.ancestor, Option.bind_eq_some_iff] at ha ⊢
    obtain ⟨outer, hp, ha⟩ := ha
    exact ⟨outer, (h.parent k (Scopes.lt_size_of_parent? _ hp)).trans hp, ih ha⟩

end Machine.Kept

/-- Both actions ran out of fuel, or both failed. -/
inductive Interrupt.Alike : Interrupt → Interrupt → Prop where
  | failure {f f'} : Alike (.failure f) (.failure f')
  | outOfFuel : Alike .outOfFuel .outOfFuel

/-! ## Tables that lead to the same bindings -/

/-- The other table has the same distance for an occurrence. If there is none, it may have one that
leads to the globals. -/
def Replica.Finds (g : Replica) (m : Machine) (use : Occurrence) : Prop :=
  g.distances[use.id]? = m.distances[use.id]? ∨
    m.distances[use.id]? = none ∧
      ∃ d, g.distances[use.id]? = some d ∧ m.scopes.ancestor m.current d = some m.globals

/-- What an expression itself looks up is found. -/
def Expr.Agrees (g : Replica) (m : Machine) : Expr → Prop
  | .variable use | .this use | .assign use _ => g.Finds m use
  | .super keyword _ => g.distances[keyword.id]? = m.distances[keyword.id]?
  | _ => True

/-- What a statement itself looks up is found. -/
def Stmt.Agrees (g : Replica) (m : Machine) : Stmt → Prop
  | .class c => ∀ use ∈ c.superclass, g.Finds m use
  | _ => True

/-- What an activity itself looks up is found. -/
def Activity.Agrees (g : Replica) (m : Machine) : Activity → Prop
  | .evaluate _ e => e.Agrees g m
  | .execute _ s => s.Agrees g m
  | _ => True

/-- A watch that allows an activity where the tables lead to the same bindings. The globals are the
first scope. -/
def Replica.watch (g : Replica) (signal : Interrupt) : Watch :=
  ⟨fun a m => m.globals = 0 → a.Agrees g m, signal⟩

namespace Replica.Finds

variable {g : Replica} {m m' : Machine} {use : Occurrence}

theorem kept (h : g.Finds m use) (hk : m.Kept m') : g.Finds m' use := by
  unfold Finds at h ⊢
  rw [hk.distances, hk.current, hk.globals]
  obtain h | ⟨hnone, d, hd, ha⟩ := h
  · exact .inl h
  · exact .inr ⟨hnone, d, hd, hk.ancestor ha⟩

/-- **The binding of an occurrence is held by the same scope.** -/
theorem holder? (h : g.Finds m use) (hg : m.globals = 0) :
    (m.replica g).holder? (use.relocate g.places) = m.holder? use := by
  have hid : (m.replica g).distances[(use.relocate g.places).id]? = g.distances[use.id]? := rfl
  have hscopes : (m.replica g).scopes = m.scopes.map (Value.relocate g.places) := rfl
  unfold Machine.holder?
  rw [hid, hscopes]
  obtain h | ⟨hnone, d, hd, ha⟩ := h
  · rw [h]
    cases m.distances[use.id]? with
    | some d => exact Scopes.holderAt?_map _ _ _ _ _
    | none => exact Scopes.holder?_map _ _ _ _
  · rw [hnone, hd]
    dsimp only
    rw [Scopes.holderAt?_map, Scopes.holderAt?, show (m.replica g).current = m.current from rfl, ha,
      hg, Option.filter_some, Scopes.holder?]
    by_cases hown : (m.scopes.own? 0 use.name.lexeme).isSome = true
    · exact (if_pos hown).trans (if_pos hown).symm
    · refine (if_neg hown).trans (Eq.symm ((if_neg hown).trans ?_))
      split
      · rfl
      · rename_i ho
        rw [Scopes.parent?_zero] at ho
        cases ho

end Replica.Finds

/-! ## Actions that follow one another -/

/-- The action `y` of the relocated program does what the action `x` does, unless that one stops with
the signal: it leads to the machine of the relocated program, and to the image of the value. -/
def Follows (g : Replica) (signal : Interrupt) {α : Type} (image : α → α) (x y : Eval α)
    (m : Machine) : Prop :=
  m.globals = 0 → Ensures x m
    (fun a m' => m.Kept m' ∧ y (m.replica g) = .ok (image a) (m'.replica g))
    (fun e m' => e = signal ∨ ∃ e', e.Alike e' ∧ y (m.replica g) = .error e' (m'.replica g))

section Laws

variable {g : Replica} {signal : Interrupt} {α β : Type} {image : α → α} {image' : β → β}
  {x y : Eval α} {m m' : Machine}

namespace Follows

theorem ok {a : α} (hx : x m = .ok a m') (hk : m.Kept m')
    (hy : y (m.replica g) = .ok (image a) (m'.replica g)) : Follows g signal image x y m := by
  intro _
  rw [ensures_of_eq_ok hx]
  exact ⟨hk, hy⟩

theorem error {e e' : Interrupt} (hx : x m = .error e m') (he : e.Alike e')
    (hy : y (m.replica g) = .error e' (m'.replica g)) : Follows g signal image x y m := by
  intro _
  rw [Ensures, hx]
  exact .inr ⟨e', he, hy⟩

theorem pure {a b : α} (h : b = image a) :
    Follows g signal image (Pure.pure a : Eval α) (Pure.pure b) m :=
  ok rfl .refl (congrArg (fun b => EStateM.Result.ok b (m.replica g)) h)

theorem fail (problem problem' : RuntimeProblem) (place place' : Token) :
    Follows g signal image (Eval.fail problem place : Eval α) (Eval.fail problem' place') m :=
  error rfl .failure rfl

theorem outOfFuel : Follows g signal image (Eval.outOfFuel : Eval α) Eval.outOfFuel m :=
  error rfl .outOfFuel rfl

/-- **Parts that follow one another make up actions that do.** -/
theorem bind {f f' : α → Eval β} (h : Follows g signal image x y m)
    (hf : ∀ a m', m.Kept m' → Follows g signal image' (f a) (f' (image a)) m') :
    Follows g signal image' (x >>= f) (y >>= f') m := by
  intro hg
  have hx := h hg
  cases hr : x m with
  | error e m₁ =>
    rw [Ensures, bind_of_error hr]
    obtain hs | ⟨e', he, hy⟩ := hx.halt_of_eq hr
    · exact .inl hs
    · exact .inr ⟨e', he, bind_of_error hy⟩
  | ok a m₁ =>
    obtain ⟨hk, hy⟩ := hx.ok_of_eq hr
    have hrest := hf a m₁ hk (hk.globals.trans hg)
    rw [Ensures, bind_of_ok hr, bind_of_ok hy]
    exact hrest.mono (fun b m₂ _ h => ⟨hk.trans h.1, h.2⟩) fun _ _ h => h

theorem map {f f' : α → β} (h : Follows g signal image x y m) (hf : ∀ a, f' (image a) = image' (f a)) :
    Follows g signal image' (f <$> x) (f' <$> y) m :=
  h.bind fun a _ _ => pure (hf a)

theorem get {f f' : Machine → Eval β} (h : Follows g signal image' (f m) (f' (m.replica g)) m) :
    Follows g signal image' (MonadState.get >>= f) (MonadState.get >>= f') m := h

theorem within (k : ScopeId) (h : Follows g signal image x y { m with current := k }) :
    Follows g signal image (Eval.within k x) (Eval.within k y) m := by
  intro hg
  have hx := h hg
  have hreplica : ({ m with current := k } : Machine).replica g =
      { m.replica g with current := k } := rfl
  rw [Ensures, Eval.within, Eval.within]
  cases hr : x { m with current := k } with
  | ok a m₁ =>
    obtain ⟨hk, hy⟩ := hx.ok_of_eq hr
    rw [hreplica] at hy
    rw [hy]
    exact ⟨⟨hk.size, hk.parent, rfl, hk.globals, hk.distances⟩, rfl⟩
  | error e m₁ =>
    obtain hs | ⟨e', he, hy⟩ := hx.halt_of_eq hr
    · exact .inl hs
    · rw [hreplica] at hy
      rw [hy]
      exact .inr ⟨e', he, rfl⟩

/-- An activity that the watch allows only where the tables agree. -/
theorem watched {a : Activity} (h : a.Agrees g m → Follows g signal image x y m) :
    Follows g signal image (Eval.watched (g.watch signal) a x) y m := by
  intro hg
  by_cases ha : (g.watch signal).allowed a m
  · have hx := h (ha hg) hg
    unfold Ensures at hx ⊢
    rw [Eval.watched_of_allowed ha]
    exact hx
  · rw [Ensures, Eval.watched, if_neg ha]
    exact .inl rfl

theorem mapM {γ : Type} {f f' : γ → Eval α} {change : γ → γ}
    (hf : ∀ c m', Follows g signal image (f c) (f' (change c)) m') (l : List γ) :
    Follows g signal (List.map image) (l.mapM f) ((l.map change).mapM f') m := by
  induction l generalizing m with
  | nil => exact pure rfl
  | cons c l ih =>
    rw [List.map_cons, List.mapM_cons, List.mapM_cons]
    exact (hf c m).bind fun a m₁ _ => ih.bind fun as m₂ _ => pure rfl

theorem ofExcept {result result' : Except RuntimeProblem α} (place place' : Token)
    (h : result' = result.map image) :
    Follows g signal image (Eval.ofExcept place result) (Eval.ofExcept place' result') m := by
  subst h
  cases result with
  | ok a => exact pure rfl
  | error problem => exact fail problem problem place place'

end Follows

end Laws

/-! ## Single steps -/

section Steps

variable {g : Replica} {signal : Interrupt} {m : Machine}

theorem Machine.kept_opened (m : Machine) (parent : ScopeId) : m.Kept (m.opened parent) where
  size := Nat.le_of_lt (m.lt_size_opened parent)
  parent := fun _ hk => Scopes.parent?_push _ _ hk
  current := rfl
  globals := rfl
  distances := rfl

theorem Machine.kept_defined (m : Machine) (k : ScopeId) (name : String) (v : Value) :
    m.Kept (m.defined k name v) where
  size := Nat.le_of_eq (Scopes.size_define _ _ _ _).symm
  parent := fun _ _ => Scopes.parent?_define _ _ _ _ _
  current := rfl
  globals := rfl
  distances := rfl

theorem Machine.replica_opened (m : Machine) (parent : ScopeId) :
    (m.replica g).opened parent = (m.opened parent).replica g :=
  congrArg (fun scopes => { m.replica g with scopes := scopes }) (Scopes.map_push _ _ _).symm

theorem Machine.replica_defined (m : Machine) (k : ScopeId) (name : String) (v : Value) :
    (m.replica g).defined k name (v.relocate g.places) = (m.defined k name v).replica g :=
  congrArg (fun scopes => { m.replica g with scopes := scopes }) (Scopes.map_define _ _ _ _ _).symm

theorem Machine.replica_instantiated (m : Machine) :
    (m.replica g).instantiated = m.instantiated.replica g := by
  have hfields : (m.fields.map (Bindings.map (Value.relocate g.places))).push
      (Bindings.empty.map (Value.relocate g.places)) =
        (m.fields.push .empty).map (Bindings.map (Value.relocate g.places)) := Array.map_push.symm
  exact congrArg (fun fields => ({ m.replica g with fields := fields } : Machine)) hfields

theorem follows_openScope (parent : ScopeId) :
    Follows g signal id (Eval.openScope parent) (Eval.openScope parent) m := by
  refine .ok rfl (m.kept_opened parent) ?_
  rw [Eval.openScope_eq, Machine.replica_opened]
  exact congrArg (EStateM.Result.ok · _) (Scopes.size_map _ _)

theorem follows_define (k : ScopeId) (name : String) (v : Value) :
    Follows g signal id (Eval.define k name v) (Eval.define k name (v.relocate g.places)) m :=
  .ok rfl (m.kept_defined k name v) (congrArg (EStateM.Result.ok ()) (m.replica_defined k name v))

theorem follows_defineHere (name : String) (v : Value) :
    Follows g signal id (Eval.defineHere name v) (Eval.defineHere name (v.relocate g.places)) m :=
  .get (follows_define m.current name v)

theorem follows_freshObject : Follows g signal id Eval.freshObject Eval.freshObject m :=
  .ok rfl (.of_scopes_eq rfl rfl rfl rfl) rfl

theorem follows_freshInstance (c : ClassObject) :
    Follows g signal (Value.relocate g.places) (Eval.freshInstance c)
      (Eval.freshInstance (c.relocate g.places)) m := by
  refine .ok rfl (.of_scopes_eq rfl rfl rfl rfl) ?_
  rw [Eval.freshInstance_eq, Machine.replica_instantiated]
  exact congrArg (fun i => EStateM.Result.ok (Value.instance i (c.relocate g.places)) _) Array.size_map

theorem follows_setField (i : InstanceId) (name : String) (v : Value) :
    Follows g signal id (Eval.setField i name v) (Eval.setField i name (v.relocate g.places)) m := by
  have hfields := map_modify (fun b : Bindings Value => b.insert name v)
    (fun b : Bindings Value => b.insert name (v.relocate g.places))
    (fun b => Bindings.map_insert (Value.relocate g.places) b name v) m.fields i
  exact .ok rfl (.of_scopes_eq rfl rfl rfl rfl)
    (congrArg (fun fields => EStateM.Result.ok () ({ m.replica g with fields := fields } : Machine))
      hfields.symm)

theorem follows_write (text : String) :
    Follows g signal id (Eval.write text) (Eval.write text) m :=
  .ok rfl (.of_scopes_eq rfl rfl rfl rfl)
    (congrArg (fun printed => EStateM.Result.ok (m.printer m.writes)
        ({ m.replica g with printed := printed, writes := m.writes + 1 } : Machine))
      Array.append_push.symm)

theorem follows_print (line : String) :
    Follows g signal id (Eval.print line) (Eval.print line) m := by
  refine (follows_write _).bind fun answer _ _ => ?_
  cases answer with
  | none => exact .pure rfl
  | some refusal => exact .error rfl .failure rfl

theorem follows_readClock :
    Follows g signal (Value.relocate g.places) Eval.readClock Eval.readClock m :=
  .ok rfl (.of_scopes_eq rfl rfl rfl rfl) rfl

theorem follows_locate {use : Occurrence} (h : g.Finds m use) :
    Follows g signal id (Eval.locate use) (Eval.locate (use.relocate g.places)) m := by
  intro hg
  have hholder := h.holder? hg
  refine Follows.get ?_ hg
  rw [hholder]
  cases m.holder? use with
  | some holder => exact .pure rfl
  | none => exact .fail _ _ _ _

theorem follows_read {use : Occurrence} (h : g.Finds m use) :
    Follows g signal (Value.relocate g.places) (Eval.read use) (Eval.read (use.relocate g.places)) m := by
  refine (follows_locate h).bind fun holder m₁ _ => .get ?_
  have hown : (m₁.replica g).scopes.own? (id holder) (use.relocate g.places).name.lexeme =
      (m₁.scopes.own? holder use.name.lexeme).map (Value.relocate g.places) :=
    Scopes.own?_map _ _ _ _
  rw [hown]
  cases m₁.scopes.own? holder use.name.lexeme with
  | some v => exact .pure rfl
  | none => exact .fail _ _ _ _

theorem follows_assign {target : Occurrence} (h : g.Finds m target) (v : Value) :
    Follows g signal id (Eval.assign target v)
      (Eval.assign (target.relocate g.places) (v.relocate g.places)) m :=
  (follows_locate h).bind fun holder _ _ => follows_define holder _ v

end Steps

end Lox
