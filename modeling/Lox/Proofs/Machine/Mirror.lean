import Lox.Machine.Evaluate
import Lox.Proofs.Binding.Legal
import Lox.Proofs.Machine.Scopes

/-!
# Scopes at run time and scopes of the program

Every scope that a program opens is the instance of a scope of its text. `Origins` says for each
opened scope of which one, by what opens it and what opens the scopes around it.

* `Machine.Extends`: what stays when a machine runs on;
* `Holds`, `Mirrors`: a chain of opened scopes is made of instances of the frames of a site;
* `Closure.Good`, `Value.Good`: the functions that can be reached stand in scopes that mirror the
  sites of their declarations;
* `Machine.Good`: everything that can be reached is good.
-/

namespace Lox

/-- For every scope that was opened, what opened it and the scopes around it. -/
abbrev Origins := List (List Region)

/-! ## What stays -/

/-- What stays when a machine runs on: where the scopes lie, which names they bind, and what they
bind to words of the language. -/
structure Machine.Extends (m : Machine) (o : Origins) (m' : Machine) (o' : Origins) : Prop where
  origins : o <+: o'
  size : m.scopes.size ≤ m'.scopes.size
  parent : ∀ k < m.scopes.size, m'.scopes.parent? k = m.scopes.parent? k
  bound : ∀ k name, (m.scopes.own? k name).isSome = true → (m'.scopes.own? k name).isSome = true
  words : ∀ k (w : Keyword) v, m.scopes.own? k w.spelling = some v →
    m'.scopes.own? k w.spelling = some v
  globals : m'.globals = m.globals
  distances : m'.distances = m.distances

namespace Machine.Extends

variable {m m₁ m₂ : Machine} {o o₁ o₂ : Origins}

theorem of_scopes_eq (hs : m₁.scopes = m.scopes) (hg : m₁.globals = m.globals)
    (hd : m₁.distances = m.distances) : Extends m o m₁ o where
  origins := List.prefix_rfl
  size := hs ▸ Nat.le_refl _
  parent := fun _ _ => hs ▸ rfl
  bound := fun _ _ h => hs ▸ h
  words := fun _ _ _ h => hs ▸ h
  globals := hg
  distances := hd

theorem refl : Extends m o m o := of_scopes_eq rfl rfl rfl

theorem trans (h₁ : Extends m o m₁ o₁) (h₂ : Extends m₁ o₁ m₂ o₂) : Extends m o m₂ o₂ where
  origins := h₁.origins.trans h₂.origins
  size := Nat.le_trans h₁.size h₂.size
  parent := fun k hk =>
    (h₂.parent k (Nat.lt_of_lt_of_le hk h₁.size)).trans (h₁.parent k hk)
  bound := fun k name h => h₂.bound k name (h₁.bound k name h)
  words := fun k w v h => h₂.words k w v (h₁.words k w v h)
  globals := h₂.globals.trans h₁.globals
  distances := h₂.distances.trans h₁.distances

theorem origin (h : Extends m o m₁ o₁) {k : ScopeId} {r : List Region} (hk : o[k]? = some r) :
    o₁[k]? = some r := by
  obtain ⟨hlt, rfl⟩ := List.getElem?_eq_some_iff.mp hk
  exact List.prefix_iff_getElem?.mp h.origins k hlt

end Machine.Extends

/-- A machine that runs on and comes back to the scope in which it stood. -/
structure Machine.Resumes (m : Machine) (o : Origins) (m' : Machine) (o' : Origins) : Prop
    extends Machine.Extends m o m' o' where
  current : m'.current = m.current

namespace Machine.Resumes

variable {m m₁ m₂ : Machine} {o o₁ o₂ : Origins}

theorem refl : Resumes m o m o := ⟨.refl, rfl⟩

theorem trans (h₁ : Resumes m o m₁ o₁) (h₂ : Resumes m₁ o₁ m₂ o₂) : Resumes m o m₂ o₂ :=
  ⟨h₁.toExtends.trans h₂.toExtends, h₂.current.trans h₁.current⟩

end Machine.Resumes

/-! ## Mirrors -/

/-- A scope binds the names of a frame, and `super` to a class. -/
structure Holds (m : Machine) (k : ScopeId) (f : Frame) : Prop where
  names : ∀ name ∈ f.names, (m.scopes.own? k name).isSome = true
  super : Keyword.super.spelling ∈ f.names →
    ∃ c, m.scopes.own? k Keyword.super.spelling = some (.class c)

/-- The chain of a scope is made of instances of the frames. -/
inductive Mirrors (m : Machine) (o : Origins) : ScopeId → List Frame → Prop where
  | top {f} : o[m.globals]? = some [f.region] → Holds m m.globals f → Mirrors m o m.globals [f]
  | inner {k outer f frames} : m.scopes.parent? k = some outer → Mirrors m o outer frames →
      o[k]? = some (f.region :: frames.map Frame.region) → Holds m k f → Mirrors m o k (f :: frames)

section Mirrors

variable {m m' : Machine} {o o' : Origins} {k : ScopeId} {frames : List Frame} {f : Frame}

theorem Holds.extends (h : Holds m k f) (he : m.Extends o m' o') : Holds m' k f where
  names := fun name hn => he.bound k name (h.names name hn)
  super := fun hs => by
    obtain ⟨c, hc⟩ := h.super hs
    exact ⟨c, he.words k .super _ hc⟩

theorem Mirrors.extends (h : Mirrors m o k frames) (he : m.Extends o m' o') :
    Mirrors m' o' k frames := by
  induction h with
  | top ho hf =>
    rw [← he.globals] at ho hf ⊢
    exact .top (he.origin ho) (hf.extends he)
  | inner hp _ ho hf ih =>
    refine .inner ?_ ih (he.origin ho) (hf.extends he)
    rw [he.parent _ (Scopes.lt_size_of_parent? _ hp), hp]

theorem Mirrors.exists_cons (h : Mirrors m o k frames) : ∃ f rest, frames = f :: rest := by
  cases h with
  | top _ _ => exact ⟨_, _, rfl⟩
  | inner _ _ _ _ => exact ⟨_, _, rfl⟩

theorem Mirrors.origin (h : Mirrors m o k frames) : o[k]? = some (frames.map Frame.region) := by
  cases h with
  | top ho _ => exact ho
  | inner _ _ ho _ => exact ho

theorem Mirrors.holds (h : Mirrors m o k (f :: frames)) : Holds m k f := by
  cases h with
  | top _ hf => exact hf
  | inner _ _ _ hf => exact hf

/-- As far out as there are frames the chain goes on, through instances of them. -/
theorem Mirrors.ancestor (h : Mirrors m o k frames) {d : Nat} (hd : d < frames.length) :
    ∃ a, m.scopes.ancestor k d = some a ∧ Mirrors m o a (frames.drop d) := by
  induction h generalizing d with
  | top ho hf =>
    obtain rfl : d = 0 := by simpa using hd
    exact ⟨m.globals, rfl, .top ho hf⟩
  | @inner k outer f frames hp hmir ho hf ih =>
    cases d with
    | zero => exact ⟨k, rfl, .inner hp hmir ho hf⟩
    | succ d =>
      obtain ⟨a, ha, hma⟩ := ih (Nat.lt_of_succ_lt_succ hd)
      exact ⟨a, (Scopes.ancestor_succ _ hp d).trans ha, hma⟩

/-- The outermost scope of a chain is that of the globals. -/
theorem Mirrors.ancestor_globals (h : Mirrors m o k frames) :
    m.scopes.ancestor k (frames.length - 1) = some m.globals := by
  induction h with
  | top _ _ => rfl
  | inner hp hm _ _ ih =>
    obtain ⟨f, rest, rfl⟩ := hm.exists_cons
    exact (Scopes.ancestor_succ _ hp rest.length).trans ih

end Mirrors

/-! ## Values -/

section Good

variable (known : List (Site × Mark)) (o : Origins) (m : Machine)

/-- A function stands in a scope that mirrors the site of its declaration. -/
def Closure.Good (c : Closure) : Prop :=
  ∃ (kind : FunctionKind) (p : Site), kind ≠ .none ∧ Mirrors m o c.scope p.frames ∧
    c.declaration.sites kind p ⊆ known

/-- A method stands in a scope around which the scope of `this` will lie. -/
def Closure.GoodMethod (c : Closure) : Prop :=
  ∃ (kind : FunctionKind) (p : Site) (cls : Class), kind ≠ .none ∧ Mirrors m o c.scope p.frames ∧
    c.declaration ∈ cls.methods ∧
    c.declaration.sites kind (p.enter (.this cls) [Keyword.this.spelling]) ⊆ known

/-- The methods that are found in a class are good. -/
def ClassObject.Good (c : ClassObject) : Prop :=
  ∀ name f, c.method? name = some f → f.GoodMethod known o m

/-- The functions that a value leads to are good. -/
def Value.Good : Value → Prop
  | .function _ c => c.Good known o m
  | .class c => c.Good known o m
  | .instance _ c => c.Good known o m
  | _ => True

/-- Everything that can be reached is good. -/
structure Machine.Good : Prop where
  origins : o.length = m.scopes.size
  values : ∀ k name v, m.scopes.own? k name = some v → v.Good known o m
  fields : ∀ (i : InstanceId) (b : Bindings Value) name v,
    m.fields[i]? = some b → b.get? name = some v → v.Good known o m
  legal : ∀ x ∈ known, x.2.Legal m.distances x.1

end Good

section Extends

variable {known : List (Site × Mark)} {o o' : Origins} {m m' : Machine}

theorem Closure.Good.extends {c : Closure} (h : c.Good known o m) (he : m.Extends o m' o') :
    c.Good known o' m' := by
  obtain ⟨kind, p, hk, hm, hs⟩ := h
  exact ⟨kind, p, hk, hm.extends he, hs⟩

theorem Closure.GoodMethod.extends {c : Closure} (h : c.GoodMethod known o m)
    (he : m.Extends o m' o') : c.GoodMethod known o' m' := by
  obtain ⟨kind, p, cls, hk, hm, hmem, hs⟩ := h
  exact ⟨kind, p, cls, hk, hm.extends he, hmem, hs⟩

theorem ClassObject.Good.extends {c : ClassObject} (h : c.Good known o m)
    (he : m.Extends o m' o') : c.Good known o' m' :=
  fun name f hf => (h name f hf).extends he

theorem Value.Good.extends {v : Value} (h : v.Good known o m) (he : m.Extends o m' o') :
    v.Good known o' m' := by
  cases v with
  | function id c => exact Closure.Good.extends h he
  | «class» c => exact ClassObject.Good.extends h he
  | «instance» id c => exact ClassObject.Good.extends h he
  | _ => trivial

theorem Machine.Good.of_eq (h : m.Good known o) (hs : m'.scopes = m.scopes)
    (hf : m'.fields = m.fields) (hg : m'.globals = m.globals) (hd : m'.distances = m.distances) :
    m'.Good known o where
  origins := hs ▸ h.origins
  values := fun k name v hv =>
    (h.values k name v (hs ▸ hv)).extends (.of_scopes_eq hs hg hd)
  fields := fun i b name v hb hv =>
    (h.fields i b name v (hf ▸ hb) hv).extends (.of_scopes_eq hs hg hd)
  legal := hd ▸ h.legal

end Extends

/-! ## Single steps -/

section Steps

variable {known : List (Site × Mark)} {o : Origins} {m : Machine} {k : ScopeId}
  {f : Frame} {frames : List Frame}

theorem Mirrors.lt_size (h : Mirrors m o k frames) (hg : m.Good known o) :
    k < m.scopes.size := by
  rw [← hg.origins]
  exact (List.getElem?_eq_some_iff.mp h.origin).1

/-- The machine with one more scope. -/
def Machine.opened (m : Machine) (parent : ScopeId) : Machine :=
  { m with scopes := (m.scopes.push (some parent)).2 }

theorem Machine.size_opened (m : Machine) (parent : ScopeId) :
    (m.opened parent).scopes.size = m.scopes.size + 1 :=
  Scopes.size_push _ _

theorem Machine.lt_size_opened (m : Machine) (parent : ScopeId) :
    m.scopes.size < (m.opened parent).scopes.size :=
  Nat.lt_of_lt_of_eq (Nat.lt_succ_self _) (m.size_opened parent).symm

theorem Machine.extends_opened (m : Machine) (parent : ScopeId) (r : List Region) :
    m.Extends o (m.opened parent) (o ++ [r]) where
  origins := List.prefix_append o [r]
  size := Nat.le_of_lt (m.lt_size_opened parent)
  parent := fun _ hk => Scopes.parent?_push _ _ hk
  bound := fun _ _ hn => (Scopes.own?_push _ _ _ _).symm ▸ hn
  words := fun _ _ _ hv => (Scopes.own?_push _ _ _ _).trans hv
  globals := rfl
  distances := rfl

theorem Machine.Good.opened (h : m.Good known o) (parent : ScopeId) (r : List Region) :
    (m.opened parent).Good known (o ++ [r]) where
  origins := by
    rw [List.length_append, h.origins]
    exact (m.size_opened parent).symm
  values := fun k name v hv =>
    (h.values k name v ((Scopes.own?_push _ _ _ _).symm.trans hv)).extends
      (m.extends_opened parent r)
  fields := fun i b name v hb hv => (h.fields i b name v hb hv).extends (m.extends_opened parent r)
  legal := h.legal

theorem Mirrors.opened (h : Mirrors m o k frames) (hg : m.Good known o) (region : Region) :
    Mirrors (m.opened k) (o ++ [region :: frames.map Frame.region]) m.scopes.size
      (⟨region, []⟩ :: frames) := by
  refine .inner (Scopes.parent?_push_size _ (h.lt_size hg)) (h.extends (m.extends_opened k _)) ?_
    ⟨by simp, by simp⟩
  rw [← hg.origins, List.getElem?_concat_length]

/-- The machine in which a scope binds a name. -/
def Machine.defined (m : Machine) (k : ScopeId) (name : String) (v : Value) : Machine :=
  { m with scopes := m.scopes.define k name v }

/-- The machine with one more instance, which has no fields. -/
def Machine.instantiated (m : Machine) : Machine := { m with fields := m.fields.push .empty }

/-- The machine in which a method has a scope with `this`. -/
def Machine.bound (m : Machine) (method : Closure) (this : Value) : Machine :=
  (m.opened method.scope).defined m.scopes.size Keyword.this.spelling this

theorem Eval.openScope_eq (parent : ScopeId) (m : Machine) :
    Eval.openScope parent m = .ok m.scopes.size (m.opened parent) := rfl

theorem Eval.freshInstance_eq (c : ClassObject) (m : Machine) :
    Eval.freshInstance c m = .ok (.instance m.fields.size c) m.instantiated := rfl

theorem Eval.bind_eq (method : Closure) (this : Value) (m : Machine) :
    Eval.bind method this m =
      .ok { method with scope := m.scopes.size } (m.bound method this) := rfl

theorem Machine.size_bound (m : Machine) (method : Closure) (this : Value) :
    (m.bound method this).scopes.size = m.scopes.size + 1 :=
  (Scopes.size_define _ _ _ _).trans (m.size_opened _)

section Defined

variable {name : String} {v : Value} (hk : k < m.scopes.size)
  (hname : ∀ w : Keyword, name = w.spelling → m.scopes.own? k name = none)

include hk

theorem Machine.own?_defined (k' : ScopeId) (name' : String) :
    (m.defined k name v).scopes.own? k' name' =
      if k = k' ∧ name = name' then some v else m.scopes.own? k' name' :=
  Scopes.own?_define _ hk _ _ _ _

include hname

theorem Machine.extends_defined : m.Extends o (m.defined k name v) o where
  origins := List.prefix_rfl
  size := Nat.le_of_eq (Scopes.size_define _ _ _ _).symm
  parent := fun _ _ => Scopes.parent?_define _ _ _ _ _
  bound := fun k' n hn => by
    rw [own?_defined hk]
    split
    · rfl
    · exact hn
  words := fun k' w v' hv => by
    rw [own?_defined hk]
    split
    · rename_i he
      obtain ⟨rfl, hw⟩ := he
      rw [← hw, hname w hw] at hv
      cases hv
    · exact hv
  globals := rfl
  distances := rfl

theorem Machine.Good.defined (h : m.Good known o) (hv : v.Good known o (m.defined k name v)) :
    (m.defined k name v).Good known o where
  origins := h.origins.trans (Scopes.size_define _ _ _ _).symm
  values := fun k' n v' hv' => by
    rw [own?_defined hk] at hv'
    split at hv'
    · cases hv'
      exact hv
    · exact (h.values k' n v' hv').extends (m.extends_defined hk hname)
  fields := fun i b n v' hb hv' =>
    (h.fields i b n v' hb hv').extends (m.extends_defined hk hname)
  legal := h.legal

end Defined

theorem Mirrors.declare (h : Mirrors m o k (f :: frames)) {name : String} {v : Value}
    (hown : m.scopes.own? k name = some v)
    (hsuper : name = Keyword.super.spelling → ∃ c, v = .class c) :
    Mirrors m o k ({ f with names := name :: f.names } :: frames) := by
  have hf := h.holds
  have hf' : Holds m k { f with names := name :: f.names } := by
    refine ⟨fun n hn => ?_, fun hs => ?_⟩
    · rcases List.mem_cons.mp hn with rfl | hn
      · rw [hown]
        rfl
      · exact hf.names n hn
    · rcases List.mem_cons.mp hs with hs | hs
      · obtain ⟨c, rfl⟩ := hsuper hs.symm
        exact ⟨c, hs ▸ hown⟩
      · exact hf.super hs
  cases h with
  | top ho _ => exact .top ho hf'
  | inner hp hm ho _ => exact .inner hp hm ho hf'

theorem Mirrors.rename {region : Region} {names names' : List String}
    (h : Mirrors m o k (⟨region, names⟩ :: frames)) (hsub : names' ⊆ names) :
    Mirrors m o k (⟨region, names'⟩ :: frames) := by
  have hf := h.holds
  have hf' : Holds m k ⟨region, names'⟩ :=
    ⟨fun n hn => hf.names n (hsub hn), fun hs => hf.super (hsub hs)⟩
  cases h with
  | top ho _ => exact .top ho hf'
  | inner hp hm ho _ => exact .inner hp hm ho hf'

theorem Machine.Good.instantiated (h : m.Good known o) : m.instantiated.Good known o where
  origins := h.origins
  values := fun k name v hv => (h.values k name v hv).extends (.of_scopes_eq rfl rfl rfl)
  fields := fun i b name v hb hv => by
    rw [Machine.instantiated, Array.getElem?_push] at hb
    split at hb
    · cases hb
      rw [Bindings.get?_empty] at hv
      cases hv
    · exact (h.fields i b name v hb hv).extends (.of_scopes_eq rfl rfl rfl)
  legal := h.legal

theorem Machine.Good.set_field (h : m.Good known o) {v : Value} (hv : v.Good known o m)
    (id : InstanceId) (name : String) :
    ({ m with fields := m.fields.modify id (·.insert name v) } : Machine).Good known o where
  origins := h.origins
  values := fun k name v hv => (h.values k name v hv).extends (.of_scopes_eq rfl rfl rfl)
  fields := fun i b n v' hb hv' => by
    refine Value.Good.extends ?_ (.of_scopes_eq (o := o) (m := m) rfl rfl rfl)
    rw [Array.getElem?_modify] at hb
    split at hb
    · obtain ⟨b₀, hb₀, rfl⟩ := Option.map_eq_some_iff.mp hb
      rw [Bindings.get?_insert] at hv'
      split at hv'
      · cases hv'
        exact hv
      · exact h.fields i b₀ n v' hb₀ hv'
    · exact h.fields i b n v' hb hv'
  legal := h.legal

end Steps

end Lox
