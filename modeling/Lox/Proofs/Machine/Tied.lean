import Lox.Proofs.Machine.Lineage

/-!
# Methods are tied to their instances

A method that is bound to an instance becomes a function in a scope of its own, in which `this` is
that instance. A program names nothing by a word of the language, so whatever it does later, `this`
is in every scope what it was when the scope was opened.

* `Machine.this?`: what `this` is in a scope, `Machine.KeepsThis`: it stays so;
* `Function.IsMethod`: a function is a method of a class that the program declares;
* `Closure.Tied`, `Value.Tied`: a function yields its instance if it is an initializer that was bound
  to one, and not otherwise;
* `Machine.Tied`: everything that can be reached is tied;
* `Machine.Tied.opened`, …: the single steps of a machine; **`Machine.Tied.bound`**: a method is bound.
-/

namespace Lox

/-- What `this` is in a scope. -/
def Machine.this? (m : Machine) (k : ScopeId) : Option Value :=
  m.scopes.own? k Keyword.this.spelling

/-- Scopes and instances stay, and `this` is in each of these scopes what it was. -/
structure Machine.KeepsThis (m m' : Machine) : Prop where
  size : m.scopes.size ≤ m'.scopes.size
  instances : m.fields.size ≤ m'.fields.size
  this : ∀ k < m.scopes.size, m'.this? k = m.this? k

/-- The program itself names nothing by a word of the language. -/
def Unreserved (sites : List (Site × Mark)) : Prop :=
  ∀ p token, (p, Mark.name token) ∈ sites → ∀ w : Keyword, token.lexeme ≠ w.spelling

/-! ## What can be reached -/

section Tied

variable (sites : List (Site × Mark))

/-- The program holds the function. -/
def Function.Known (f : Function) : Prop := ∃ kind p, f.sites kind p ⊆ sites

/-- The function is a method of a class that the program declares. -/
def Function.IsMethod (f : Function) : Prop :=
  ∃ p c, (p, Mark.statement (.class c)) ∈ sites ∧ f ∈ c.methods

/-- What is found under a name in a class is a method of that name, and an initializer if that is its
name. -/
structure Closure.TiedMethod (name : String) (c : Closure) : Prop where
  known : c.declaration.Known sites
  method : c.declaration.IsMethod sites
  name : c.declaration.name.lexeme = name
  flag : c.isInitializer = c.declaration.isInitializer

/-- All methods that are found in a class belong there. -/
def ClassObject.Tied (c : ClassObject) : Prop :=
  ∀ name f, c.method? name = some f → f.TiedMethod sites name

variable (m : Machine)

/-- A function yields an instance if it is a method named as initializers are and its scope binds it to
the instance, and not otherwise. -/
structure Closure.Tied (c : Closure) : Prop where
  known : c.declaration.Known sites
  scope : c.scope < m.scopes.size
  free : m.this? c.scope = none → c.isInitializer = false
  bound : ∀ v, m.this? c.scope = some v →
    c.declaration.IsMethod sites ∧ c.isInitializer = c.declaration.isInitializer

/-- The functions and classes that a value leads to are tied, and an instance is there. -/
def Value.Tied : Value → Prop
  | .function _ c => c.Tied sites m
  | .class c => c.Tied sites
  | .instance id c => id < m.fields.size ∧ c.Tied sites
  | _ => True

/-- So is what a statement ends with. -/
def Completion.Tied : Completion → Prop
  | .return v => v.Tied sites m
  | _ => True

/-- Everything that can be reached is tied, and `this` is an instance wherever it is bound. -/
structure Machine.Tied : Prop where
  values : ∀ k name v, m.scopes.own? k name = some v → v.Tied sites m
  fields : ∀ (i : InstanceId) (b : Bindings Value) name v,
    m.fields[i]? = some b → b.get? name = some v → v.Tied sites m
  this : ∀ k v, m.this? k = some v → ∃ id c, v = .instance id c

/-- The machine stands in a scope in which statements stand, and not in one for `this`. -/
structure Machine.AtStatement : Prop where
  lt_size : m.current < m.scopes.size
  free : m.this? m.current = none

end Tied

/-! ## What stays -/

section Keeps

variable {sites : List (Site × Mark)} {m m' m₁ m₂ : Machine}

namespace Machine.KeepsThis

theorem of_eq (hs : m'.scopes = m.scopes) (hf : m'.fields = m.fields) : m.KeepsThis m' :=
  ⟨hs ▸ Nat.le_refl _, hf ▸ Nat.le_refl _, fun _ _ => by rw [this?, hs, this?]⟩

theorem refl (m : Machine) : m.KeepsThis m := of_eq rfl rfl

theorem trans (h₁ : m.KeepsThis m₁) (h₂ : m₁.KeepsThis m₂) : m.KeepsThis m₂ :=
  ⟨Nat.le_trans h₁.size h₂.size, Nat.le_trans h₁.instances h₂.instances, fun k hk =>
    (h₂.this k (Nat.lt_of_lt_of_le hk h₁.size)).trans (h₁.this k hk)⟩

end Machine.KeepsThis

theorem Machine.lt_size_of_this? {k : ScopeId} {v : Value} (h : m.this? k = some v) :
    k < m.scopes.size := by
  rcases Nat.lt_or_ge k m.scopes.size with hlt | hge
  · exact hlt
  · rw [Machine.this?, Scopes.own?_eq_none _ hge] at h
    cases h

/-- What `this` is stays what it is. -/
theorem Machine.KeepsThis.this_of_some (h : m.KeepsThis m') {k : ScopeId} {v : Value}
    (hv : m.this? k = some v) : m'.this? k = some v :=
  (h.this k (Machine.lt_size_of_this? hv)).trans hv

theorem Closure.Tied.mono {c : Closure} (h : c.Tied sites m) (hk : m.KeepsThis m') :
    c.Tied sites m' where
  known := h.known
  scope := Nat.lt_of_lt_of_le h.scope hk.size
  free := fun hnone => h.free ((hk.this _ h.scope).symm.trans hnone)
  bound := fun v hv => h.bound v ((hk.this _ h.scope).symm.trans hv)

theorem Value.Tied.mono {v : Value} (h : v.Tied sites m) (hk : m.KeepsThis m') :
    v.Tied sites m' := by
  cases v with
  | function id c => exact Closure.Tied.mono h hk
  | «class» c => exact h
  | «instance» id c => exact ⟨Nat.lt_of_lt_of_le h.1 hk.instances, h.2⟩
  | _ => trivial

theorem Completion.Tied.mono {c : Completion} (h : c.Tied sites m) (hk : m.KeepsThis m') :
    c.Tied sites m' := by
  cases c with
  | «return» v => exact Value.Tied.mono h hk
  | _ => trivial

theorem Machine.AtStatement.mono (h : m.AtStatement) (hk : m.KeepsThis m')
    (hc : m'.current = m.current) : m'.AtStatement where
  lt_size := hc ▸ Nat.lt_of_lt_of_le h.lt_size hk.size
  free := by rw [hc, hk.this _ h.lt_size, h.free]

end Keeps

/-! ## Classes -/

section Classes

variable {sites : List (Site × Mark)}

theorem ClassObject.tied_of {c : ClassObject}
    (hmethods : ∀ name f, c.methods.get? name = some f → f.TiedMethod sites name)
    (hsuper : ∀ parent, c.superclass = some parent → parent.Tied sites) : c.Tied sites := by
  obtain ⟨id, cname, superclass, methods⟩ := c
  intro name f hf
  unfold method? at hf
  split at hf
  · rename_i found hfound
    cases hf
    exact hmethods name f hfound
  · split at hf
    · rename_i parent
      exact hsuper parent rfl name f hf
    · cases hf

theorem Closure.tiedMethod_of_methodTable {p : Site} {c : Class} {scope : ScopeId} {name : String}
    {f : Closure} (hs : (Stmt.class c).sites p ⊆ sites)
    (hf : (Eval.methodTable scope c.methods).get? name = some f) : f.TiedMethod sites name := by
  obtain ⟨g, hg, rfl, rfl⟩ := closure_of_methodTable hf
  obtain ⟨cname, superclass, methods, span⟩ := c
  rw [Stmt.sites.eq_def, List.cons_subset] at hs
  obtain ⟨hclass, hs⟩ := hs
  simp only [Class.sites, List.cons_subset, List.append_subset] at hs
  exact ⟨⟨_, _, fun x hx => hs.2.2 (Function.mem_sitesMethods hg hx)⟩, ⟨p, _, hclass, hg⟩, rfl, rfl⟩

end Classes

/-! ## Single steps -/

section Steps

variable {sites : List (Site × Mark)} {m m' : Machine} {k : ScopeId} {name : String} {v : Value}

theorem Machine.KeepsThis.opened (m : Machine) (parent : ScopeId) :
    m.KeepsThis (m.opened parent) where
  size := m.le_size_opened parent
  instances := Nat.le_refl _
  this := fun _ _ => Scopes.own?_push _ _ _ _

theorem Machine.this?_defined (hname : name ≠ Keyword.this.spelling) (k' : ScopeId) :
    (m.defined k name v).this? k' = m.this? k' := by
  rcases Nat.lt_or_ge k m.scopes.size with hk | hk
  · exact (Machine.own?_defined hk _ _).trans (if_neg fun h => hname h.2)
  · rw [Machine.defined_of_size_le hk]

theorem Machine.KeepsThis.defined (hname : name ≠ Keyword.this.spelling) :
    m.KeepsThis (m.defined k name v) where
  size := m.le_size_defined k name v
  instances := Nat.le_refl _
  this := fun k' _ => Machine.this?_defined hname k'

theorem Machine.KeepsThis.instantiated (m : Machine) : m.KeepsThis m.instantiated where
  size := Nat.le_refl _
  instances := by
    rw [Machine.instantiated, Array.size_push]
    exact Nat.le_succ _
  this := fun _ _ => rfl

theorem Machine.own?_bound (method : Closure) (this : Value) (k : ScopeId) (name : String) :
    (m.bound method this).scopes.own? k name =
      if m.scopes.size = k ∧ Keyword.this.spelling = name then some this
      else m.scopes.own? k name := by
  rw [Machine.bound, Machine.own?_defined (m.lt_size_opened _)]
  exact congrArg (ite _ _) (Scopes.own?_push _ _ _ _)

/-- In the scope of a method that was bound, `this` is what it was bound to. -/
theorem Machine.this?_bound (method : Closure) (this : Value) :
    (m.bound method this).this? m.scopes.size = some this :=
  (Machine.own?_bound method this _ _).trans (if_pos ⟨rfl, rfl⟩)

theorem Machine.KeepsThis.bound (method : Closure) (this : Value) :
    m.KeepsThis (m.bound method this) where
  size := m.le_size_bound method this
  instances := Nat.le_refl _
  this := fun _ hk => (Machine.own?_bound method this _ _).trans
    (if_neg fun h => Nat.ne_of_gt hk h.1)

namespace Machine.Tied

theorem of_eq (h : m.Tied sites) (hs : m'.scopes = m.scopes) (hf : m'.fields = m.fields) :
    m'.Tied sites where
  values := fun k name v hv => (h.values k name v (hs ▸ hv)).mono (.of_eq hs hf)
  fields := fun i b name v hb hv => (h.fields i b name v (hf ▸ hb) hv).mono (.of_eq hs hf)
  this := fun k v hv => h.this k v (by rwa [this?, hs] at hv)

theorem opened (h : m.Tied sites) (parent : ScopeId) : (m.opened parent).Tied sites where
  values := fun k name v hv =>
    (h.values k name v ((Scopes.own?_push _ _ _ _).symm.trans hv)).mono (.opened m parent)
  fields := fun i b name v hb hv => (h.fields i b name v hb hv).mono (.opened m parent)
  this := fun k v hv => h.this k v ((Scopes.own?_push _ _ _ _).symm.trans hv)

theorem defined (h : m.Tied sites) (hname : name ≠ Keyword.this.spelling) (hv : v.Tied sites m) :
    (m.defined k name v).Tied sites := by
  rcases (Nat.lt_or_ge k m.scopes.size).symm with hk | hk
  · rwa [Machine.defined_of_size_le hk]
  refine ⟨fun k' n v' hv' => ?_, fun i b n v' hb hv' => (h.fields i b n v' hb hv').mono
    (.defined hname), fun k' v' hv' => h.this k' v' ((this?_defined hname k').symm.trans hv')⟩
  rw [Machine.own?_defined hk] at hv'
  split at hv'
  · cases hv'
    exact hv.mono (.defined hname)
  · exact (h.values k' n v' hv').mono (.defined hname)

/-- **A method is bound to an instance.** -/
theorem bound (h : m.Tied sites) (method : Closure) {id : InstanceId} {c : ClassObject}
    (hthis : Value.Tied sites m (.instance id c)) :
    (m.bound method (.instance id c)).Tied sites := by
  refine ⟨fun k n v hv => ?_, fun i b n v hb hv => (h.fields i b n v hb hv).mono (.bound method _),
    fun k v hv => ?_⟩
  · rw [own?_bound] at hv
    split at hv
    · cases hv
      exact hthis.mono (.bound method _)
    · exact (h.values k n v hv).mono (.bound method _)
  · rw [this?, own?_bound] at hv
    split at hv
    · exact ⟨id, c, (Option.some.inj hv).symm⟩
    · exact h.this k v hv

theorem instantiated (h : m.Tied sites) : m.instantiated.Tied sites where
  values := fun k name v hv => (h.values k name v hv).mono (.instantiated m)
  fields := fun i b name v hb hv => by
    rw [Machine.instantiated, Array.getElem?_push] at hb
    split at hb
    · cases hb
      cases hv
    · exact (h.fields i b name v hb hv).mono (.instantiated m)
  this := h.this

theorem set_field (h : m.Tied sites) (hv : v.Tied sites m) (id : InstanceId) (name : String) :
    m.KeepsThis { m with fields := m.fields.modify id (·.insert name v) } ∧
      ({ m with fields := m.fields.modify id (·.insert name v) } : Machine).Tied sites := by
  have hkeeps : m.KeepsThis { m with fields := m.fields.modify id (·.insert name v) } :=
    ⟨Nat.le_refl _, Nat.le_of_eq Array.size_modify.symm, fun _ _ => rfl⟩
  refine ⟨hkeeps, fun k name v hv => (h.values k name v hv).mono hkeeps, fun i b n v' hb hv' => ?_,
    h.this⟩
  refine Value.Tied.mono ?_ hkeeps
  rw [Array.getElem?_modify] at hb
  split at hb
  · obtain ⟨b₀, hb₀, rfl⟩ := Option.map_eq_some_iff.mp hb
    rw [Bindings.get?_insert] at hv'
    split at hv'
    · cases hv'
      exact hv
    · exact h.fields i b₀ n v' hb₀ hv'
  · exact h.fields i b n v' hb hv'

end Machine.Tied

theorem Closure.TiedMethod.bound {method : Closure} (h : method.TiedMethod sites name)
    (this : Value) :
    Closure.Tied sites (m.bound method this) { method with scope := m.scopes.size } where
  known := h.known
  scope := Nat.lt_of_lt_of_eq (Nat.lt_succ_self _) (m.size_bound method this).symm
  free := fun hnone => by cases hnone.symm.trans (Machine.this?_bound method this)
  bound := fun _ _ => ⟨h.method, h.flag⟩

end Steps

end Lox
