import Lox.Proofs.Machine.SafeSteps

/-!
# Where methods come from

The execution of a class declaration with a superclass opens a scope of `super` and makes a class
whose methods stand in that scope. Which class was made with which scope is recorded beside the run.
A method can only be bound to an instance of a class that descends from the one it was made for.

* `ClassObject.DescendsFrom`: a class and its superclasses;
* `Births`: the classes that were made, by their scopes of `super`, `MadeBy`: of which declaration;
* `ClassObject.Rooted`, `Value.Rooted`, `Machine.Rooted`: all classes own the methods that were made
  for them, and `this` is an instance of a class that descends from the owner of the method;
* `Machine.Outlives`: what was recorded stays when a machine runs on;
* `Machine.Rooted.opened`, …: the single steps of a machine; **`Machine.Rooted.bound`**: a method is
  bound, **`Machine.Rooted.inherited`**: a class with a superclass is made.
-/

namespace Lox

/-! ## Superclasses -/

/-- A class descends from itself and from whatever its superclass descends from. -/
inductive ClassObject.DescendsFrom : ClassObject → ClassObject → Prop where
  | refl {c} : DescendsFrom c c
  | super {c parent k} : c.superclass = some parent → DescendsFrom parent k → DescendsFrom c k

namespace ClassObject

theorem DescendsFrom.trans {c k k' : ClassObject} (h : c.DescendsFrom k) (h' : k.DescendsFrom k') :
    c.DescendsFrom k' := by
  induction h with
  | refl => exact h'
  | super hc _ ih => exact .super hc (ih h')

theorem exists_of_method? {name : String} {f : Closure} : (c : ClassObject) →
    c.method? name = some f → ∃ k, c.DescendsFrom k ∧ k.methods.get? name = some f
  | ⟨id, cname, none, methods⟩, h => by
    unfold method? at h
    cases hm : methods.get? name with
    | none =>
      rw [hm] at h
      cases h
    | some found =>
      rw [hm] at h
      exact ⟨_, .refl, hm.trans h⟩
  | ⟨id, cname, some parent, methods⟩, h => by
    unfold method? at h
    cases hm : methods.get? name with
    | none =>
      rw [hm] at h
      obtain ⟨k, hk, hf⟩ := exists_of_method? parent h
      exact ⟨k, .super rfl hk, hf⟩
    | some found =>
      rw [hm] at h
      exact ⟨_, .refl, hm.trans h⟩

end ClassObject

/-! ## What was made -/

/-- For every scope of `super`, the class that was made when the scope was opened. -/
abbrev Births := ScopeId → Option ClassObject

namespace Births

/-- Nothing was made yet. -/
def none : Births := fun _ => Option.none

/-- A class was made with a scope of `super`. -/
def record (births : Births) (scope : ScopeId) (born : ClassObject) : Births :=
  fun k => if k = scope then some born else births k

/-- The record is part of a longer one. -/
def Within (births final : Births) : Prop := ∀ k born, births k = some born → final k = some born

end Births

/-- A class was made with a scope of `super` by an execution of the declaration: its methods are those
of the declaration, in that scope. -/
structure MadeBy (labels : Origins) (scope : ScopeId) (born : ClassObject) (c : Class) : Prop where
  label : ∃ chain, labels[scope]? = some (.super c :: chain)
  name : born.name = c.name.lexeme
  methods : born.methods = Eval.methodTable scope c.methods

section Rooted

variable (births : Births) (m : Machine)

/-- Each class on the chain owns its methods: those in a scope of `super` were made with it. -/
def ClassObject.Rooted (c : ClassObject) : Prop :=
  ∀ k, c.DescendsFrom k → ∀ name f, k.methods.get? name = some f →
    f.scope < m.scopes.size ∧ ∀ born, births f.scope = some born → born = k

/-- The classes that a value leads to own their methods. -/
def Value.Rooted : Value → Prop
  | .class c => c.Rooted births m
  | .instance _ c => c.Rooted births m
  | _ => True

/-- All classes own their methods, and `this` and `super` are what the class declarations made
them. -/
structure Machine.Rooted (labels : Origins) : Prop where
  values : ∀ k name v, m.scopes.own? k name = some v → v.Rooted births m
  fields : ∀ (i : InstanceId) (b : Bindings Value) name v,
    m.fields[i]? = some b → b.get? name = some v → v.Rooted births m
  /-- `this` is an instance of the class that was made with the scope of `super` around it, or of a
  class that descends from it. -/
  this : ∀ k v, m.scopes.own? k Keyword.this.spelling = some v →
    ∃ id c, v = .instance id c ∧ ∀ outer born, m.scopes.parent? k = some outer →
      births outer = some born → c.DescendsFrom born
  super : ∀ k v, m.scopes.own? k Keyword.super.spelling = some v → ∃ born, births k = some born
  /-- A scope of `super` binds the superclass of the class that was made with it. -/
  made : ∀ k born, births k = some born → k < m.scopes.size ∧ (∃ c, MadeBy labels k born c) ∧
    ∃ parent, born.superclass = some parent ∧
      m.scopes.own? k Keyword.super.spelling = some (.class parent)

end Rooted

/-! ## What stays -/

/-- What was recorded of the scopes that were there stays. -/
structure Machine.Outlives (m : Machine) (births : Births) (m' : Machine) (births' : Births) :
    Prop where
  size : m.scopes.size ≤ m'.scopes.size
  births : ∀ k < m.scopes.size, births' k = births k

section Extends

variable {labels : Origins} {births births' births₁ births₂ : Births} {m m' m₁ m₂ : Machine}

namespace Machine.Outlives

theorem of_size (h : m.scopes.size ≤ m'.scopes.size) : m.Outlives births m' births :=
  ⟨h, fun _ _ => rfl⟩

theorem refl : m.Outlives births m births := of_size (Nat.le_refl _)

theorem trans (h₁ : m.Outlives births m₁ births₁) (h₂ : m₁.Outlives births₁ m₂ births₂) :
    m.Outlives births m₂ births₂ :=
  ⟨Nat.le_trans h₁.size h₂.size, fun k hk =>
    (h₂.births k (Nat.lt_of_lt_of_le hk h₁.size)).trans (h₁.births k hk)⟩

theorem within (h : m.Outlives births m' births') (hm : m.Rooted births labels) :
    births.Within births' := fun k born hk => (h.births k (hm.made k born hk).1).trans hk

end Machine.Outlives

theorem Births.Within.trans {final : Births} (h₁ : births₁.Within births₂)
    (h₂ : births₂.Within final) : births₁.Within final :=
  fun k born hk => h₂ k born (h₁ k born hk)

theorem ClassObject.Rooted.outlives {c : ClassObject} (h : c.Rooted births m)
    (ho : m.Outlives births m' births') : c.Rooted births' m' := by
  intro k hk name f hf
  obtain ⟨hlt, hborn⟩ := h k hk name f hf
  refine ⟨Nat.lt_of_lt_of_le hlt ho.size, fun born hb => hborn born ?_⟩
  rw [← ho.births _ hlt, hb]

theorem Value.Rooted.outlives {v : Value} (h : v.Rooted births m)
    (ho : m.Outlives births m' births') : v.Rooted births' m' := by
  cases v with
  | «class» c => exact ClassObject.Rooted.outlives h ho
  | «instance» id c => exact ClassObject.Rooted.outlives h ho
  | _ => trivial

/-- A method that is found in a class was made for a class from which that one descends. -/
theorem ClassObject.Rooted.descends {c : ClassObject} (h : c.Rooted births m) {name : String}
    {f : Closure} (hf : c.method? name = some f) :
    f.scope < m.scopes.size ∧ ∀ born, births f.scope = some born → c.DescendsFrom born := by
  obtain ⟨k, hk, hmethod⟩ := c.exists_of_method? hf
  obtain ⟨hlt, howner⟩ := h k hk name f hmethod
  exact ⟨hlt, fun born hborn => (howner born hborn).symm ▸ hk⟩

end Extends

/-! ## Single steps -/

section Steps

variable {labels : Origins} {births : Births} {m m' : Machine} {k : ScopeId} {name : String}
  {v : Value}

/-- In a scope that was never opened nothing is bound. -/
theorem Machine.defined_of_size_le (hk : m.scopes.size ≤ k) : m.defined k name v = m := by
  have hsame : m.scopes.define k name v = m.scopes := by
    unfold Scopes.define Scopes.modify
    congr 1
    apply Array.ext_getElem?
    intro i
    rw [Array.getElem?_modify]
    split
    · rename_i hi
      rw [Array.getElem?_eq_none (hi ▸ hk)]
      rfl
    · rfl
  rw [Machine.defined, hsame]

theorem Machine.le_size_opened (m : Machine) (parent : ScopeId) :
    m.scopes.size ≤ (m.opened parent).scopes.size :=
  Nat.le_of_lt (m.lt_size_opened parent)

theorem Machine.le_size_bound (m : Machine) (method : Closure) (this : Value) :
    m.scopes.size ≤ (m.bound method this).scopes.size :=
  Nat.le_of_lt (Nat.lt_of_lt_of_eq (Nat.lt_succ_self _) (m.size_bound method this).symm)

theorem Machine.le_size_defined (m : Machine) (k : ScopeId) (name : String) (v : Value) :
    m.scopes.size ≤ (m.defined k name v).scopes.size :=
  Nat.le_of_eq (Scopes.size_define _ _ _ _).symm

theorem Machine.Outlives.opened (parent : ScopeId) : m.Outlives births (m.opened parent) births :=
  .of_size (m.le_size_opened parent)

theorem Machine.Outlives.defined : m.Outlives births (m.defined k name v) births :=
  .of_size (m.le_size_defined k name v)

namespace Machine.Rooted

theorem of_eq (h : m.Rooted births labels) (hs : m'.scopes = m.scopes)
    (hf : m'.fields = m.fields) : m'.Rooted births labels where
  values := fun k name v hv =>
    (h.values k name v (hs ▸ hv)).outlives (.of_size (hs ▸ Nat.le_refl _))
  fields := fun i b name v hb hv =>
    (h.fields i b name v (hf ▸ hb) hv).outlives (.of_size (hs ▸ Nat.le_refl _))
  this := fun k v hv => hs ▸ h.this k v (hs ▸ hv)
  super := fun k v hv => h.super k v (hs ▸ hv)
  made := fun k born hk => hs ▸ h.made k born hk

theorem opened (h : m.Rooted births labels) (parent : ScopeId) :
    (m.opened parent).Rooted births labels where
  values := fun k name v hv =>
    (h.values k name v ((Scopes.own?_push _ _ _ _).symm.trans hv)).outlives (.opened parent)
  fields := fun i b name v hb hv => (h.fields i b name v hb hv).outlives (.opened parent)
  this := fun k v hv => by
    have hown := (Scopes.own?_push _ _ _ _).symm.trans hv
    obtain ⟨id, c, hc, hborn⟩ := h.this k v hown
    refine ⟨id, c, hc, fun outer born hp => hborn outer born ?_⟩
    rcases Nat.lt_or_ge k m.scopes.size with hlt | hge
    · exact (Scopes.parent?_push _ _ hlt).symm.trans hp
    · rw [Scopes.own?_eq_none _ hge] at hown
      cases hown
  super := fun k v hv => h.super k v ((Scopes.own?_push _ _ _ _).symm.trans hv)
  made := fun k born hk => by
    obtain ⟨hlt, hmade, parent, hsuper, hown⟩ := h.made k born hk
    exact ⟨Nat.lt_of_lt_of_le hlt (m.le_size_opened _), hmade, parent, hsuper,
      (Scopes.own?_push _ _ _ _).trans hown⟩

theorem defined (h : m.Rooted births labels) (hname : ∀ w : Keyword, name ≠ w.spelling)
    (hv : v.Rooted births m) : (m.defined k name v).Rooted births labels := by
  rcases (Nat.lt_or_ge k m.scopes.size).symm with hk | hk
  · rwa [Machine.defined_of_size_le hk]
  have hword (k' : ScopeId) (w : Keyword) :
      (m.defined k name v).scopes.own? k' w.spelling = m.scopes.own? k' w.spelling :=
    (Machine.own?_defined hk _ _).trans (if_neg fun hc => hname w hc.2)
  refine ⟨fun k' n v' hv' => ?_, fun i b n v' hb hv' => (h.fields i b n v' hb hv').outlives .defined,
    fun k' v' hv' => ?_, fun k' v' hv' => h.super k' v' ((hword k' .super).symm.trans hv'),
    fun k' born hk' => ?_⟩
  · rw [Machine.own?_defined hk] at hv'
    split at hv'
    · cases hv'
      exact hv.outlives .defined
    · exact (h.values k' n v' hv').outlives .defined
  · obtain ⟨id, c, hc, hborn⟩ := h.this k' v' ((hword k' .this).symm.trans hv')
    exact ⟨id, c, hc, fun outer born hp =>
      hborn outer born ((Scopes.parent?_define _ _ _ _ _).symm.trans hp)⟩
  · obtain ⟨hlt, hmade, parent, hsuper, hown⟩ := h.made k' born hk'
    exact ⟨Nat.lt_of_lt_of_eq hlt (Scopes.size_define _ _ _ _).symm, hmade, parent, hsuper,
      (hword k' .super).trans hown⟩

theorem instantiated (h : m.Rooted births labels) : m.instantiated.Rooted births labels where
  values := fun k name v hv => (h.values k name v hv).outlives (.of_size (Nat.le_refl _))
  fields := fun i b name v hb hv => by
    rw [Machine.instantiated, Array.getElem?_push] at hb
    split at hb
    · cases hb
      cases hv
    · exact (h.fields i b name v hb hv).outlives (.of_size (Nat.le_refl _))
  this := h.this
  super := h.super
  made := h.made

theorem set_field (h : m.Rooted births labels) (hv : v.Rooted births m) (id : InstanceId)
    (name : String) :
    ({ m with fields := m.fields.modify id (·.insert name v) } : Machine).Rooted births labels where
  values := fun k name v hv => (h.values k name v hv).outlives (.of_size (Nat.le_refl _))
  fields := fun i b n v' hb hv' => by
    refine Value.Rooted.outlives ?_ (.of_size (m := m) (Nat.le_refl _))
    rw [Array.getElem?_modify] at hb
    split at hb
    · obtain ⟨b₀, hb₀, rfl⟩ := Option.map_eq_some_iff.mp hb
      rw [Bindings.get?_insert] at hv'
      split at hv'
      · cases hv'
        exact hv
      · exact h.fields i b₀ n v' hb₀ hv'
    · exact h.fields i b n v' hb hv'
  this := h.this
  super := h.super
  made := h.made

/-- **A method is bound** to an instance of a class that descends from the owner of the method. -/
theorem bound (h : m.Rooted births labels) {method : Closure} {id : InstanceId} {c : ClassObject}
    (hc : c.Rooted births m) (hscope : method.scope < m.scopes.size)
    (hdescends : ∀ born, births method.scope = some born → c.DescendsFrom born) :
    (m.bound method (.instance id c)).Rooted births labels := by
  have ho := h.opened method.scope
  have hk := m.lt_size_opened method.scope
  have hnew (name : String) : (m.opened method.scope).scopes.own? m.scopes.size name = none :=
    (Scopes.own?_push _ _ _ _).trans (Scopes.own?_eq_none _ (Nat.le_refl _) name)
  have hsuper (k : ScopeId) :
      (m.bound method (.instance id c)).scopes.own? k Keyword.super.spelling =
        (m.opened method.scope).scopes.own? k Keyword.super.spelling :=
    (Machine.own?_defined hk _ _).trans (if_neg fun hc => absurd hc.2 (by decide))
  refine ⟨fun k n v hv => ?_, fun i b n v hb hv => (ho.fields i b n v hb hv).outlives .defined,
    fun k v hv => ?_, fun k v hv => ho.super k v ((hsuper k).symm.trans hv), fun k born hk => ?_⟩
  · rw [Machine.bound, Machine.own?_defined hk] at hv
    split at hv
    · cases hv
      exact ClassObject.Rooted.outlives (ClassObject.Rooted.outlives hc (.opened _)) .defined
    · exact (ho.values k n v hv).outlives .defined
  · have hparent : (m.bound method (.instance id c)).scopes.parent? k =
        (m.opened method.scope).scopes.parent? k := Scopes.parent?_define _ _ _ _ _
    rw [Machine.bound, Machine.own?_defined hk] at hv
    split at hv
    · rename_i hsame
      obtain ⟨rfl, -⟩ := hsame
      cases hv
      refine ⟨id, c, rfl, fun outer born hp hborn => ?_⟩
      rw [hparent] at hp
      obtain rfl := Option.some.inj ((Scopes.parent?_push_size _ hscope).symm.trans hp)
      exact hdescends born hborn
    · obtain ⟨id', c', hc', hborn⟩ := ho.this k v hv
      exact ⟨id', c', hc', fun outer born hp => hborn outer born (hparent.symm.trans hp)⟩
  · obtain ⟨hlt, hmade, parent, hparent, hown⟩ := ho.made k born hk
    exact ⟨Nat.lt_of_lt_of_eq hlt (Scopes.size_define _ _ _ _).symm, hmade, parent, hparent,
      (hsuper k).trans hown⟩

end Machine.Rooted

/-! ## Classes -/

/-- The machine with a scope of `super` inside the current scope. -/
def Machine.inherited (m : Machine) (parent : ClassObject) : Machine :=
  (m.opened m.current).defined m.scopes.size Keyword.super.spelling (.class parent)

section Classes

variable {born parent : ClassObject}

theorem Machine.size_inherited : (m.inherited parent).scopes.size = m.scopes.size + 1 :=
  (Scopes.size_define _ _ _ _).trans (m.size_opened _)

theorem Machine.own?_inherited (k : ScopeId) (name : String) :
    (m.inherited parent).scopes.own? k name =
      if m.scopes.size = k ∧ Keyword.super.spelling = name then some (.class parent)
      else m.scopes.own? k name := by
  have hk := m.lt_size_opened m.current
  have hold : (m.opened m.current).scopes.own? k name = m.scopes.own? k name :=
    Scopes.own?_push _ _ _ _
  rw [Machine.inherited, Machine.own?_defined hk, hold]

theorem Machine.Outlives.inherited :
    m.Outlives births (m.inherited parent) (births.record m.scopes.size born) where
  size := Nat.le_of_lt (Nat.lt_of_lt_of_eq (Nat.lt_succ_self _) Machine.size_inherited.symm)
  births := fun _ hk => if_neg (Nat.ne_of_lt hk)

theorem ClassObject.Rooted.plain {c : ClassObject} (hsuper : c.superclass = none)
    (hmethods : ∀ name f, c.methods.get? name = some f →
      f.scope < m.scopes.size ∧ births f.scope = none) : c.Rooted births m := by
  intro k hk name f hf
  cases hk with
  | refl =>
    obtain ⟨hlt, hnone⟩ := hmethods name f hf
    exact ⟨hlt, fun born hborn => nomatch hnone.symm.trans hborn⟩
  | super hc _ => cases hsuper.symm.trans hc

/-- **A class with a superclass is made** and recorded with the scope of its methods. -/
theorem Machine.Rooted.inherited (h : m.Rooted births labels) {c : Class}
    (hmade : MadeBy labels m.scopes.size born c) (hsuper : born.superclass = some parent)
    (hparent : parent.Rooted births m) :
    (m.inherited parent).Rooted (births.record m.scopes.size born) labels ∧
      born.Rooted (births.record m.scopes.size born) (m.inherited parent) := by
  have hout : m.Outlives births (m.inherited parent) (births.record m.scopes.size born) :=
    .inherited
  have hlater : m.scopes.size < (m.inherited parent).scopes.size :=
    Nat.lt_of_lt_of_eq (Nat.lt_succ_self _) Machine.size_inherited.symm
  refine ⟨⟨fun k n v hv => ?_, fun i b n v hb hv => (h.fields i b n v hb hv).outlives hout,
    fun k v hv => ?_, fun k v hv => ?_, fun k b hk => ?_⟩, fun k hk name f hf => ?_⟩
  · rw [Machine.own?_inherited] at hv
    split at hv
    · cases hv
      exact ClassObject.Rooted.outlives hparent hout
    · exact (h.values k n v hv).outlives hout
  · rw [Machine.own?_inherited, if_neg fun hc => absurd hc.2 (by decide)] at hv
    obtain ⟨id, cls, hcls, hborn⟩ := h.this k v hv
    refine ⟨id, cls, hcls, fun outer b hp hb => ?_⟩
    have hlt : k < m.scopes.size := by
      rcases Nat.lt_or_ge k m.scopes.size with hlt | hge
      · exact hlt
      · rw [Scopes.own?_eq_none _ hge] at hv
        cases hv
    have hp' : m.scopes.parent? k = some outer := by
      rw [← hp]
      exact ((Scopes.parent?_define _ _ _ _ _).trans (Scopes.parent?_push _ _ hlt)).symm
    have houter : outer < m.scopes.size := Nat.lt_trans (m.scopes.parent_lt k outer hp') hlt
    exact hborn outer b hp' ((hout.births outer houter).symm.trans hb)
  · rw [Machine.own?_inherited] at hv
    split at hv
    · rename_i hsame
      exact ⟨born, hsame.1 ▸ if_pos rfl⟩
    · obtain ⟨b, hb⟩ := h.super k v hv
      exact ⟨b, (hout.births k (h.made k b hb).1).trans hb⟩
  · rw [Births.record] at hk
    rw [Machine.own?_inherited]
    split at hk
    · rename_i hsame
      cases hk
      subst hsame
      exact ⟨hlater, ⟨c, hmade⟩, parent, hsuper, if_pos ⟨rfl, rfl⟩⟩
    · rename_i hne
      obtain ⟨hlt, hmade', parent', hsuper', hown⟩ := h.made k b hk
      exact ⟨Nat.lt_trans hlt hlater, hmade', parent', hsuper',
        (if_neg fun hc => hne hc.1.symm).trans hown⟩
  · cases hk with
    | refl =>
      rw [hmade.methods] at hf
      obtain ⟨_, _, _, hscope⟩ := exists_of_methodTable hf
      rw [hscope]
      exact ⟨hlater, fun b hb => (Option.some.inj ((if_pos rfl).symm.trans hb)).symm⟩
    | super hc hk =>
      obtain rfl := Option.some.inj (hsuper.symm.trans hc)
      exact ClassObject.Rooted.outlives hparent hout k hk name f hf

end Classes

end Steps

end Lox
