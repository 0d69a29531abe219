import Mathlib.Data.Nat.Find
import Lox.Machine.State
import Lox.Proofs.Ensures
import Lox.Proofs.Machine.Scopes

/-!
# Searching a chain and reaching into it

A name is read and written in the innermost scope of a chain that binds it, or in the scope at a given
distance. Scopes belong to many chains: what is written in one of them is seen through every chain that
reaches it, and nowhere else.

* `holder?_eq_some_iff`, `holder?_eq_none_iff`: the search finds the least distance at which the name is
  bound;
* `Scopes.Overwritten`: one name of one scope was written, as it is seen from everywhere;
* `Scopes.Agrees`: the search, reading and writing at a distance, and binding a name agree;
* `Eval.Carries`: an action does what was found in the scopes, or fails and changes nothing;
* **`chains_agree`**: the scopes of every machine agree, and reading and writing variables is this.
-/

namespace Lox

namespace Scopes

variable {α : Type} {s t : Scopes α} {scope holder other : ScopeId} {name : String} {value : α}

/-! ## The search -/

theorem getAt_succ {outer : ScopeId} (h : s.parent? scope = some outer) (k : Nat) :
    s.getAt scope (k + 1) name = s.getAt outer k name := by
  rw [getAt, ancestor_succ s h, getAt]

/-- **The search finds the scope at the least distance at which the name is bound.** -/
theorem holder?_eq_some_iff : s.holder? scope name = some holder ↔
    ∃ k, s.ancestor scope k = some holder ∧ (s.own? holder name).isSome = true ∧
      ∀ j < k, s.getAt scope j name = none := by
  fun_induction s.holder? scope name with
  | case1 scope hown =>
    constructor
    · rintro ⟨⟩
      exact ⟨0, rfl, hown, fun _ hj => absurd hj (Nat.not_lt_zero _)⟩
    · rintro ⟨k, hk, -, hleast⟩
      cases k with
      | zero => exact hk
      | succ k =>
        have hnone : s.own? scope name = none := hleast 0 (Nat.succ_pos k)
        rw [hnone] at hown
        cases hown
  | case2 scope hown hparent =>
    refine iff_of_false nofun ?_
    rintro ⟨k, hk, hbound, -⟩
    cases k with
    | zero =>
      cases hk
      exact hown hbound
    | succ k =>
      rw [ancestor, hparent] at hk
      cases hk
  | case3 scope hown outer hparent ih =>
    have hzero : s.getAt scope 0 name = none := Option.not_isSome_iff_eq_none.mp hown
    rw [ih]
    constructor
    · rintro ⟨k, hk, hbound, hleast⟩
      refine ⟨k + 1, (ancestor_succ s hparent k).trans hk, hbound, fun j hj => ?_⟩
      cases j with
      | zero => exact hzero
      | succ j => exact (getAt_succ hparent j).trans (hleast j (Nat.lt_of_succ_lt_succ hj))
    · rintro ⟨k, hk, hbound, hleast⟩
      cases k with
      | zero =>
        cases hk
        exact absurd hbound hown
      | succ k =>
        refine ⟨k, (ancestor_succ s hparent k).symm.trans hk, hbound, fun j hj => ?_⟩
        exact (getAt_succ hparent j).symm.trans (hleast (j + 1) (Nat.succ_lt_succ hj))

theorem getAt_eq_some_iff {k : Nat} : s.getAt scope k name = some value ↔
    ∃ holder, s.ancestor scope k = some holder ∧ s.own? holder name = some value :=
  Option.bind_eq_some_iff

/-- **The search finds nothing if no scope of the chain binds the name.** -/
theorem holder?_eq_none_iff :
    s.holder? scope name = none ↔ ∀ k, s.getAt scope k name = none := by
  constructor
  · intro hnone
    by_contra hbound
    rw [not_forall] at hbound
    -- the least distance at which the name is bound would be found
    obtain ⟨v, hv⟩ := Option.ne_none_iff_exists'.mp (Nat.find_spec hbound)
    obtain ⟨holder, hholder, hown⟩ := getAt_eq_some_iff.mp hv
    have hfound : s.holder? scope name = some holder :=
      holder?_eq_some_iff.mpr ⟨_, hholder, by rw [hown]; rfl, fun j hj =>
        Classical.not_not.mp (Nat.find_min hbound hj)⟩
    rw [hnone] at hfound
    cases hfound
  · intro hnone
    cases hfound : s.holder? scope name with
    | none => rfl
    | some holder =>
      obtain ⟨k, hk, hown, -⟩ := holder?_eq_some_iff.mp hfound
      rw [← getAt_eq s hk, hnone k] at hown
      cases hown

theorem search_eq_some_iff : s.search scope name = some value ↔
    ∃ k, s.getAt scope k name = some value ∧ ∀ j < k, s.getAt scope j name = none := by
  rw [search, Option.bind_eq_bind, Option.bind_eq_some_iff]
  constructor
  · rintro ⟨holder, hholder, hown⟩
    obtain ⟨k, hk, -, hleast⟩ := holder?_eq_some_iff.mp hholder
    exact ⟨k, (getAt_eq s hk name).trans hown, hleast⟩
  · rintro ⟨k, hk, hleast⟩
    obtain ⟨holder, hholder, hown⟩ := getAt_eq_some_iff.mp hk
    exact ⟨holder, holder?_eq_some_iff.mpr ⟨k, hholder, by rw [hown]; rfl, hleast⟩, hown⟩

theorem isSome_search : (s.search scope name).isSome = (s.holder? scope name).isSome := by
  rw [search]
  cases hfound : s.holder? scope name with
  | none => rfl
  | some holder =>
    obtain ⟨-, -, hown, -⟩ := holder?_eq_some_iff.mp hfound
    exact hown

/-! ## Writing -/

/-- One name of one scope was written. What a chain of scopes shows at a distance is the new value if it
reaches that scope there and the name is that one; it is what it was if not. -/
structure Overwritten (s t : Scopes α) (holder : ScopeId) (name : String) (value : α) : Prop where
  ancestor : ∀ scope k, t.ancestor scope k = s.ancestor scope k
  getAt : ∀ scope k other, t.getAt scope k other =
    if s.ancestor scope k = some holder ∧ other = name then some value else s.getAt scope k other

theorem ancestor_define (k : Nat) :
    (s.define holder name value).ancestor scope k = s.ancestor scope k := by
  induction k generalizing scope with
  | zero => rfl
  | succ k ih =>
    rw [Scopes.ancestor, Scopes.ancestor, parent?_define]
    exact congrArg _ (funext fun outer => ih)

theorem lt_size_of_own? (h : (s.own? holder name).isSome = true) : holder < s.size := by
  by_contra hge
  rw [own?_eq_none s (Nat.le_of_not_lt hge)] at h
  cases h

/-- **Binding a name in a scope overwrites one name of one scope.** -/
theorem overwritten_define (h : holder < s.size) (name : String) (value : α) :
    s.Overwritten (s.define holder name value) holder name value where
  ancestor scope k := ancestor_define k
  getAt scope k other := by
    rw [Scopes.getAt, Scopes.getAt, ancestor_define]
    cases s.ancestor scope k with
    | none => simp
    | some reached =>
      show (s.define holder name value).own? reached other = _
      rw [own?_define s h]
      by_cases hreached : holder = reached
      · simp [hreached, eq_comm]
      · simp [hreached, Ne.symm hreached]

theorem own?_define_of_ne (h : other ≠ holder) (name : String) (value : α) (name' : String) :
    (s.define holder name value).own? other name' = s.own? other name' := by
  show ((s.toArray.modify holder _)[other]?).bind _ = _
  rw [Array.getElem?_modify, if_neg (Ne.symm h), own?]

/-! ## Agreement -/

/-- The ways to read and write a name that begin in a scope agree. -/
structure Agrees (s : Scopes α) (scope : ScopeId) (name : String) (value : α) : Prop where
  /-- The search yields what is bound at the least distance at which the name is bound. -/
  found : ∀ v, s.search scope name = some v ↔
    ∃ k, s.getAt scope k name = some v ∧ ∀ j < k, s.getAt scope j name = none
  missing : s.search scope name = none ↔ ∀ k, s.getAt scope k name = none
  /-- A name can be written wherever it can be read. -/
  assign_iff : (s.assign scope name value).isSome = (s.search scope name).isSome
  /-- It is written where it is read. -/
  assign : ∀ t, s.assign scope name value = some t → ∃ k holder,
    s.ancestor scope k = some holder ∧ (s.own? holder name).isSome = true ∧
      (∀ j < k, s.getAt scope j name = none) ∧ s.Overwritten t holder name value
  assignAt_iff : ∀ k, (s.assignAt scope k name value).isSome = true ↔
    ∃ holder, s.ancestor scope k = some holder ∧ (s.own? holder name).isSome = true
  assignAt : ∀ k t, s.assignAt scope k name value = some t →
    ∃ holder, s.ancestor scope k = some holder ∧ s.Overwritten t holder name value
  define : scope < s.size → s.Overwritten (s.define scope name value) scope name value
  /-- A scope in which nothing is bound stays as it was. -/
  elsewhere : ∀ other ≠ scope, (s.define scope name value).parent? other = s.parent? other ∧
    ∀ name', (s.define scope name value).own? other name' = s.own? other name'

/-- **All scopes agree.** -/
theorem agrees (s : Scopes α) (scope : ScopeId) (name : String) (value : α) :
    s.Agrees scope name value where
  found _ := search_eq_some_iff
  missing := by
    rw [← Option.isNone_iff_eq_none, ← Option.not_isSome, isSome_search, Option.not_isSome,
      Option.isNone_iff_eq_none, holder?_eq_none_iff]
  assign_iff := by rw [assign, Option.isSome_map, isSome_search]
  assign t h := by
    obtain ⟨holder, hholder, rfl⟩ := Option.map_eq_some_iff.mp h
    obtain ⟨k, hk, hown, hleast⟩ := holder?_eq_some_iff.mp hholder
    exact ⟨k, holder, hk, hown, hleast, overwritten_define (lt_size_of_own? hown) name value⟩
  assignAt_iff k := by
    rw [assignAt, Option.isSome_map, holderAt?, Option.isSome_filter, Option.any_eq_true]
  assignAt k t h := by
    obtain ⟨holder, hholder, rfl⟩ := Option.map_eq_some_iff.mp h
    obtain ⟨hk, hown⟩ := Option.filter_eq_some_iff.mp hholder
    exact ⟨holder, hk, overwritten_define (lt_size_of_own? hown) name value⟩
  define h := overwritten_define h name value
  elsewhere other h := ⟨parent?_define s scope name value other, own?_define_of_ne h name value⟩

end Scopes

/-! ## Variables -/

/-- What a host sees of an occurrence to which nothing is bound. -/
def Occurrence.undefinedError (use : Occurrence) : Error :=
  .located .running ("Undefined variable '" ++ use.name.lexeme ++ "'.") use.name.position

/-- The action goes on with what was found for the occurrence. If nothing was found it fails at the
occurrence, and nothing has changed. -/
def Eval.Carries {β : Type} (action : Eval β) (m : Machine) (use : Occurrence) :
    Option (β × Machine) → Prop
  | some (b, m') => action m = .ok b m'
  | none => ∃ f : Failure, action m = .error (.failure f) m ∧ f.error = use.undefinedError

section

variable {m : Machine} {use : Occurrence}

theorem message_missing (m : Machine) (use : Occurrence) :
    (m.missing use).message = "Undefined variable '" ++ use.name.lexeme ++ "'." := by
  unfold Machine.missing
  split <;> rfl

theorem carries_locate :
    (Eval.locate use).Carries m use ((m.holder? use).map (·, m)) := by
  cases hholder : m.holder? use with
  | some holder =>
    show Eval.locate use m = _
    rw [Eval.locate, get_bind, hholder]
    rfl
  | none =>
    refine ⟨.problem (m.missing use) use.name.position, ?_, ?_⟩
    · rw [Eval.locate, get_bind, hholder]
      rfl
    · rw [Failure.error, message_missing, Occurrence.undefinedError]

theorem carries_read : (Eval.read use).Carries m use
    (((m.holder? use).bind (m.scopes.own? · use.name.lexeme)).map (·, m)) := by
  have hlocate : (Eval.locate use).Carries m use _ := carries_locate
  cases hholder : m.holder? use with
  | none =>
    rw [hholder] at hlocate
    obtain ⟨f, hfails, hf⟩ := hlocate
    exact ⟨f, bind_of_error hfails, hf⟩
  | some holder =>
    rw [hholder] at hlocate
    have hread : Eval.read use m = _ := bind_of_ok hlocate
    rw [get_bind] at hread
    cases hown : m.scopes.own? holder use.name.lexeme with
    | some v =>
      rw [hown] at hread
      simp only [Option.bind_some, hown, Option.map_some]
      exact hread
    | none =>
      rw [hown] at hread
      simp only [Option.bind_some, hown, Option.map_none]
      refine ⟨.problem (m.missing use) use.name.position, hread, ?_⟩
      rw [Failure.error, message_missing, Occurrence.undefinedError]

theorem carries_assign (value : Value) : (Eval.assign use value).Carries m use
    ((m.holder? use).map fun holder =>
      ((), { m with scopes := m.scopes.define holder use.name.lexeme value })) := by
  have hlocate : (Eval.locate use).Carries m use _ := carries_locate
  cases hholder : m.holder? use with
  | none =>
    rw [hholder] at hlocate
    obtain ⟨f, hfails, hf⟩ := hlocate
    exact ⟨f, bind_of_error hfails, hf⟩
  | some holder =>
    rw [hholder] at hlocate
    exact bind_of_ok hlocate

end

/-- **Searching a chain, reading and writing at a distance, and binding a name agree**, and each
write touches one name of one scope. Where nothing is bound, a variable is reported as undefined
and nothing has changed. -/
theorem chains_agree (m : Machine) :
    (∀ scope name value, m.scopes.Agrees scope name value) ∧
      ∀ (use : Occurrence) (value : Value),
        (m.distances[use.id]? = none →
          (Eval.read use).Carries m use
              ((m.scopes.search m.globals use.name.lexeme).map (·, m)) ∧
            (Eval.assign use value).Carries m use
              ((m.scopes.assign m.globals use.name.lexeme value).map fun scopes =>
                ((), { m with scopes := scopes }))) ∧
        ∀ k, m.distances[use.id]? = some k →
          (Eval.read use).Carries m use
              ((m.scopes.getAt m.current k use.name.lexeme).map (·, m)) ∧
            (Eval.assign use value).Carries m use
              ((m.scopes.assignAt m.current k use.name.lexeme value).map fun scopes =>
                ((), { m with scopes := scopes })) := by
  refine ⟨m.scopes.agrees, fun use value => ⟨fun hnone => ?_, fun k hk => ?_⟩⟩
  · have hread : (Eval.read use).Carries m use _ := carries_read
    have hassign : (Eval.assign use value).Carries m use _ := carries_assign value
    rw [Machine.holder?, hnone] at hread hassign
    exact ⟨hread, by rwa [Scopes.assign, Option.map_map]⟩
  · have hread : (Eval.read use).Carries m use _ := carries_read
    have hassign : (Eval.assign use value).Carries m use _ := carries_assign value
    rw [Machine.holder?, hk] at hread hassign
    refine ⟨?_, by rwa [Scopes.assignAt, Option.map_map]⟩
    have hsame : (m.scopes.holderAt? m.current k use.name.lexeme).bind
        (m.scopes.own? · use.name.lexeme) = m.scopes.getAt m.current k use.name.lexeme := by
      rw [Scopes.holderAt?, Scopes.getAt]
      cases m.scopes.ancestor m.current k with
      | none => rfl
      | some holder =>
        cases hown : m.scopes.own? holder use.name.lexeme <;> simp [Option.filter_some, hown]
    exact hsame ▸ hread

end Lox
