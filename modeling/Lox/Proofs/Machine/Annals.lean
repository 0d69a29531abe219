import Lox.Proofs.Machine.Outward
import Lox.Proofs.Machine.UpholdsRun

/-!
# The annals of a heap

The annals of a run tell of every scope inside which one it was opened, and for what, and of every
number of a class which class has it. What is in them stays, so that a scope or a class that is met
again is the same as before.

* `Opening`, `Annals`: what is told of a scope, and of a whole run, `Annals.Within`: what stays;
* `ClassObject.OnRecord`, `Value.OnRecord`, `Machine.OnRecord`: what can be reached is in the annals,
  and leads to scopes and classes that are there;
* `ClassObject.OnRecord.eq_of_id`: a class never changes;
* `Machine.OnRecord.chain`: every chain of scopes ends in the globals;
* `ClassObject.lineage`, **`ClassObject.method?_eq`**: the method of the nearest class that has one;
* `Machine.UpToDate`: the annals tell of nothing else, `Machine.UpToDate.opened`, …: the single steps
  of a machine.
-/

namespace Lox

/-- Inside which scope a scope was opened, and for which activity, that began in which machine. -/
structure Opening where
  outer : ScopeId
  activity : Activity
  machine : Machine

/-- What is told of the scopes that were opened and of the classes that were made. -/
structure Annals where
  openings : ScopeId → Option Opening
  classes : ObjectId → Option ClassObject

namespace Annals

/-- Nothing was opened or made yet. -/
def blank : Annals := ⟨fun _ => none, fun _ => none⟩

/-- A scope was opened. -/
def opened (annals : Annals) (k : ScopeId) (o : Opening) : Annals :=
  { annals with openings := fun k' => if k' = k then some o else annals.openings k' }

/-- A class was made. -/
def made (annals : Annals) (c : ClassObject) : Annals :=
  { annals with classes := fun id => if id = c.id then some c else annals.classes id }

/-- What is told stays in longer annals. -/
structure Within (annals final : Annals) : Prop where
  openings : ∀ k o, annals.openings k = some o → final.openings k = some o
  classes : ∀ id c, annals.classes id = some c → final.classes id = some c

variable {annals annals₁ annals₂ : Annals}

theorem Within.refl (annals : Annals) : annals.Within annals := ⟨fun _ _ h => h, fun _ _ h => h⟩

theorem Within.trans (h₁ : annals.Within annals₁) (h₂ : annals₁.Within annals₂) :
    annals.Within annals₂ :=
  ⟨fun k o h => h₂.openings k o (h₁.openings k o h), fun id c h => h₂.classes id c (h₁.classes id c h)⟩

/-- The annals tell for which activity a scope was opened that it opens. -/
def Tells (annals : Annals) (m : Machine) (a : Activity) : Prop :=
  ∀ k outer kind, a.Opens m k outer kind →
    m.scopes.size ≤ k ∧ annals.openings k = some ⟨outer, a, m⟩

theorem Tells.widen {m : Machine} {a : Activity} (h : annals.Tells m a)
    (hw : annals.Within annals₁) : annals₁.Tells m a := fun k outer kind hopens => by
  obtain ⟨hle, ho⟩ := h k outer kind hopens
  exact ⟨hle, hw.openings k _ ho⟩

end Annals

/-! ## What can be reached -/

section OnRecord

variable (annals : Annals) (m : Machine)

/-- A class has its number in the annals, was made behind its superclass, and its methods stand in
scopes that are there. -/
structure ClassObject.Entered (c : ClassObject) : Prop where
  entry : annals.classes c.id = some c
  lt : c.id < m.nextObject
  super : ∀ parent, c.superclass = some parent → parent.id < c.id
  methods : ∀ name f, c.methods.get? name = some f → f.scope < m.scopes.size

/-- So has every class on the chain of a class. -/
def ClassObject.OnRecord (c : ClassObject) : Prop :=
  ∀ k, c.DescendsFrom k → k.Entered annals m

/-- What a value leads to is there, and its classes are in the annals. -/
def Value.OnRecord : Value → Prop
  | .function id c => id < m.nextObject ∧ c.scope < m.scopes.size
  | .class c => c.OnRecord annals m
  | .instance id c => id < m.fields.size ∧ c.OnRecord annals m
  | _ => True

/-- So is what a statement ends with. -/
def Completion.OnRecord : Completion → Prop
  | .return v => v.OnRecord annals m
  | _ => True

end OnRecord

/-- Everything that can be reached is in the annals, and leads to what is there. -/
structure Machine.OnRecord (annals : Annals) (m : Machine) : Prop where
  current : m.current < m.scopes.size
  globals : m.globals < m.scopes.size
  outermost : m.scopes.parent? m.globals = none
  /-- A scope other than the globals lies inside the one in which it was opened. -/
  inner : ∀ k < m.scopes.size, k ≠ m.globals →
    ∃ o, annals.openings k = some o ∧ m.scopes.parent? k = some o.outer
  values : ∀ k name v, m.scopes.own? k name = some v → v.OnRecord annals m
  fields : ∀ (i : InstanceId) (b : Bindings Value) name v,
    m.fields[i]? = some b → b.get? name = some v → v.OnRecord annals m

section Laws

variable {annals annals' : Annals} {m m' : Machine}

theorem ClassObject.Entered.mono {c : ClassObject} (h : c.Entered annals m)
    (hw : annals.Within annals') (ho : m.Outward m') : c.Entered annals' m' where
  entry := hw.classes _ _ h.entry
  lt := Nat.lt_of_lt_of_le h.lt ho.objects
  super := h.super
  methods := fun name f hf => Nat.lt_of_lt_of_le (h.methods name f hf) ho.size

theorem ClassObject.OnRecord.mono {c : ClassObject} (h : c.OnRecord annals m)
    (hw : annals.Within annals') (ho : m.Outward m') : c.OnRecord annals' m' :=
  fun k hk => (h k hk).mono hw ho

/-- **A class with the same number is the same class**, wherever and whenever it is reached. -/
theorem ClassObject.OnRecord.eq_of_id {c c' : ClassObject} (h : c.OnRecord annals m)
    (h' : c'.OnRecord annals m') (hid : c'.id = c.id) : c' = c := by
  have hentry : annals.classes c'.id = some c' := (h' c' .refl).entry
  rw [hid, (h c .refl).entry] at hentry
  exact (Option.some.inj hentry).symm

theorem Value.OnRecord.mono {v : Value} (h : v.OnRecord annals m) (hw : annals.Within annals')
    (ho : m.Outward m') : v.OnRecord annals' m' := by
  cases v with
  | function id c =>
    exact ⟨Nat.lt_of_lt_of_le h.1 ho.objects, Nat.lt_of_lt_of_le h.2 ho.size⟩
  | «class» c => exact ClassObject.OnRecord.mono h hw ho
  | «instance» id c =>
    exact ⟨Nat.lt_of_lt_of_le h.1 ho.instances, ClassObject.OnRecord.mono h.2 hw ho⟩
  | _ => trivial

theorem Completion.OnRecord.mono {c : Completion} (h : c.OnRecord annals m)
    (hw : annals.Within annals') (ho : m.Outward m') : c.OnRecord annals' m' := by
  cases c with
  | «return» v => exact Value.OnRecord.mono h hw ho
  | _ => trivial

theorem ClassObject.OnRecord.method {c : ClassObject} (h : c.OnRecord annals m) {name : String}
    {f : Closure} (hf : c.method? name = some f) : f.scope < m.scopes.size := by
  obtain ⟨k, hk, hmethod⟩ := c.exists_of_method? hf
  exact (h k hk).methods name f hmethod

theorem Machine.OnRecord.widen (h : m.OnRecord annals) (hw : annals.Within annals') :
    m.OnRecord annals' where
  current := h.current
  globals := h.globals
  outermost := h.outermost
  inner := fun k hk hne => by
    obtain ⟨o, ho, hp⟩ := h.inner k hk hne
    exact ⟨o, hw.openings k o ho, hp⟩
  values := fun k name v hv => (h.values k name v hv).mono hw (.refl m)
  fields := fun i b name v hb hv => (h.fields i b name v hb hv).mono hw (.refl m)

/-- **Every chain of scopes ends in the globals**, after no more links than scopes were opened
before. -/
theorem Machine.OnRecord.chain (h : m.OnRecord annals) {k : ScopeId} (hk : k < m.scopes.size) :
    ∃ d ≤ k, m.scopes.ancestor k d = some m.globals := by
  induction k using Nat.strongRecOn with
  | ind k ih =>
    by_cases hne : k = m.globals
    · exact ⟨0, Nat.zero_le _, congrArg some hne⟩
    · obtain ⟨o, -, hp⟩ := h.inner k hk hne
      have hlt : o.outer < k := m.scopes.parent_lt k o.outer hp
      obtain ⟨d, hd, hchain⟩ := ih o.outer hlt (Nat.lt_trans hlt hk)
      exact ⟨d + 1, Nat.lt_of_le_of_lt hd hlt, (Scopes.ancestor_succ _ hp d).trans hchain⟩

end Laws

/-! ## Methods -/

/-- A class and the superclasses behind it, from the class itself outward. -/
def ClassObject.lineage : ClassObject → List ClassObject
  | ⟨id, name, superclass, methods⟩ =>
    ⟨id, name, superclass, methods⟩ ::
      match superclass with
      | some parent => parent.lineage
      | none => []

theorem ClassObject.lineage_eq (c : ClassObject) :
    c.lineage = c :: (c.superclass.map lineage).getD [] := by
  obtain ⟨id, name, superclass, methods⟩ := c
  cases superclass <;> rw [lineage] <;> rfl

/-- **A method is that of the nearest class that has one.** -/
theorem ClassObject.method?_eq (name : String) : (c : ClassObject) →
    c.method? name = c.lineage.findSome? fun k => k.methods.get? name
  | ⟨id, cname, none, methods⟩ => by
    rw [method?, lineage, List.findSome?_cons]
    cases methods.get? name <;> rfl
  | ⟨id, cname, some parent, methods⟩ => by
    rw [method?, lineage, List.findSome?_cons]
    cases methods.get? name with
    | none => exact parent.method?_eq name
    | some found => rfl

/-- The classes of a chain were made one behind the other, the outermost one first. -/
theorem ClassObject.OnRecord.pairwise_lineage {annals : Annals} {m : Machine} :
    (c : ClassObject) → c.OnRecord annals m → c.lineage.Pairwise fun k parent => parent.id < k.id
  | ⟨id, name, none, methods⟩, _ => List.pairwise_singleton _ _
  | ⟨id, name, some ⟨id', name', superclass, methods'⟩, methods⟩, h => by
    have hlt : id' < id := (h _ .refl).super _ rfl
    have hparent := pairwise_lineage ⟨id', name', superclass, methods'⟩
      fun k hk => h k (.super rfl hk)
    refine List.pairwise_cons.mpr ⟨fun k hk => ?_, hparent⟩
    rw [lineage_eq, List.mem_cons] at hk
    rcases hk with rfl | hk
    · exact hlt
    · rw [lineage_eq, List.pairwise_cons] at hparent
      exact Nat.lt_trans (hparent.1 k hk) hlt

/-! ## Single steps -/

namespace Machine.Outward

theorem numbered (m : Machine) : m.Outward m.numbered := of_eq rfl (Nat.le_refl _) (Nat.le_succ _) rfl

theorem bound_method (m : Machine) (method : Closure) (this : Value) :
    m.Outward (m.bound method this) :=
  (opened m method.scope).trans (defined _ _ _ _)

theorem inherited (m : Machine) (parent : ClassObject) : m.Outward (m.inherited parent) :=
  (opened m m.current).trans (defined _ _ _ _)

end Machine.Outward

/-- The annals tell of everything that can be reached, and of no scope or class that is not there. -/
structure Machine.UpToDate (annals : Annals) (m : Machine) : Prop
    extends Machine.OnRecord annals m where
  openings : ∀ k, m.scopes.size ≤ k → annals.openings k = none
  classes : ∀ id, m.nextObject ≤ id → annals.classes id = none

section Steps

variable {annals : Annals} {m m' : Machine} {name : String} {v : Value}

theorem Annals.within_opened {k : ScopeId} {o : Opening} (h : annals.openings k = none) :
    annals.Within (annals.opened k o) where
  openings := fun k' o' h' => by
    have hne : k' ≠ k := by
      rintro rfl
      cases h.symm.trans h'
    exact (if_neg hne).trans h'
  classes := fun _ _ h' => h'

theorem Annals.within_made {c : ClassObject} (h : annals.classes c.id = none) :
    annals.Within (annals.made c) where
  openings := fun _ _ h' => h'
  classes := fun id c' h' => by
    have hne : id ≠ c.id := by
      rintro rfl
      cases h.symm.trans h'
    exact (if_neg hne).trans h'

namespace Machine.UpToDate

theorem of_eq (h : m.UpToDate annals) (hs : m'.scopes = m.scopes) (hf : m'.fields = m.fields)
    (hg : m'.globals = m.globals) (ho : m.nextObject ≤ m'.nextObject)
    (hc : m'.current < m.scopes.size) : m'.UpToDate annals where
  current := hs ▸ hc
  globals := by rw [hs, hg]; exact h.globals
  outermost := by rw [hs, hg]; exact h.outermost
  inner := by rw [hs, hg]; exact h.inner
  values := fun k name v hv => (h.values k name v (hs ▸ hv)).mono (.refl _)
    (.of_eq hs (Nat.le_of_eq (congrArg Array.size hf.symm)) ho hg)
  fields := fun i b name v hb hv => (h.fields i b name v (hf ▸ hb) hv).mono (.refl _)
    (.of_eq hs (Nat.le_of_eq (congrArg Array.size hf.symm)) ho hg)
  openings := hs ▸ h.openings
  classes := fun id hid => h.classes id (Nat.le_trans ho hid)

theorem within_opened (h : m.UpToDate annals) (o : Opening) :
    annals.Within (annals.opened m.scopes.size o) :=
  Annals.within_opened (h.openings _ (Nat.le_refl _))

theorem within_made (h : m.UpToDate annals) {c : ClassObject} (hid : c.id = m.nextObject) :
    annals.Within (annals.made c) :=
  Annals.within_made (h.classes _ (Nat.le_of_eq hid.symm))

/-- **A scope is opened**, and it is told inside which one and for what. -/
theorem opened (h : m.UpToDate annals) {o : Opening} (hlt : o.outer < m.scopes.size) :
    (m.opened o.outer).UpToDate (annals.opened m.scopes.size o) := by
  have hw := h.within_opened o
  have hsize := m.size_opened o.outer
  have hmore := m.lt_size_opened o.outer
  refine ⟨⟨Nat.lt_trans h.current hmore, Nat.lt_trans h.globals hmore, ?_, fun k hk hne => ?_,
    fun k name v hv => ?_, fun i b name v hb hv => (h.fields i b name v hb hv).mono hw (.opened m _)⟩,
    fun k hk => ?_, h.classes⟩
  · exact (Scopes.parent?_push _ _ h.globals).trans h.outermost
  · rcases Nat.lt_succ_iff_lt_or_eq.mp (hsize ▸ hk) with hlt' | rfl
    · obtain ⟨o', ho', hp⟩ := h.inner k hlt' hne
      exact ⟨o', hw.openings k o' ho', (Scopes.parent?_push _ _ hlt').trans hp⟩
    · exact ⟨o, if_pos rfl, Scopes.parent?_push_size _ hlt⟩
  · exact (h.values k name v ((Scopes.own?_push _ _ _ _).symm.trans hv)).mono hw (.opened m _)
  · have hle : m.scopes.size < k := Nat.lt_of_lt_of_le hmore hk
    exact (if_neg (Nat.ne_of_gt hle)).trans (h.openings k (Nat.le_of_lt hle))

theorem defined (h : m.UpToDate annals) (hv : v.OnRecord annals m) (k : ScopeId) (name : String) :
    (m.defined k name v).UpToDate annals := by
  rcases (Nat.lt_or_ge k m.scopes.size).symm with hk | hk
  · rwa [Machine.defined_of_size_le hk]
  have hsize : (m.defined k name v).scopes.size = m.scopes.size := Scopes.size_define _ _ _ _
  have hout := Machine.Outward.defined m k name v
  refine ⟨⟨hsize ▸ h.current, hsize ▸ h.globals, ?_, fun k' hk' hne => ?_, fun k' name' v' hv' => ?_,
    fun i b name' v' hb hv' => (h.fields i b name' v' hb hv').mono (.refl _) hout⟩,
    hsize ▸ h.openings, h.classes⟩
  · exact (Scopes.parent?_define _ _ _ _ _).trans h.outermost
  · obtain ⟨o, ho, hp⟩ := h.inner k' (hsize ▸ hk') hne
    exact ⟨o, ho, (Scopes.parent?_define _ _ _ _ _).trans hp⟩
  · rw [Machine.own?_defined hk] at hv'
    split at hv'
    · cases hv'
      exact hv.mono (.refl _) hout
    · exact (h.values k' name' v' hv').mono (.refl _) hout

theorem numbered (h : m.UpToDate annals) : m.numbered.UpToDate annals :=
  h.of_eq rfl rfl rfl (Nat.le_succ _) h.current

theorem instantiated (h : m.UpToDate annals) : m.instantiated.UpToDate annals where
  current := h.current
  globals := h.globals
  outermost := h.outermost
  inner := h.inner
  values := fun k name v hv => (h.values k name v hv).mono (.refl _) (.instantiated m)
  fields := fun i b name v hb hv => by
    rw [Machine.instantiated, Array.getElem?_push] at hb
    split at hb
    · cases hb
      cases hv
    · exact (h.fields i b name v hb hv).mono (.refl _) (.instantiated m)
  openings := h.openings
  classes := h.classes

theorem set_field (h : m.UpToDate annals) (hv : v.OnRecord annals m) (id : InstanceId)
    (name : String) :
    ({ m with fields := m.fields.modify id (·.insert name v) } : Machine).UpToDate annals := by
  have hout := Machine.Outward.set_field m id name v
  refine ⟨⟨h.current, h.globals, h.outermost, h.inner,
    fun k name v hv => (h.values k name v hv).mono (.refl _) hout, fun i b name' v' hb hv' => ?_⟩,
    h.openings, h.classes⟩
  refine Value.OnRecord.mono ?_ (.refl _) hout
  rw [Array.getElem?_modify] at hb
  split at hb
  · obtain ⟨b₀, hb₀, rfl⟩ := Option.map_eq_some_iff.mp hb
    rw [Bindings.get?_insert] at hv'
    split at hv'
    · cases hv'
      exact hv
    · exact h.fields i b₀ name' v' hb₀ hv'
  · exact h.fields i b name' v' hb hv'

/-- **A method is bound**: a scope is opened and `this` is bound in it. -/
theorem bound (h : m.UpToDate annals) {method : Closure} (hscope : method.scope < m.scopes.size)
    {this : Value} (hthis : this.OnRecord annals m) {o : Opening} (ho : o.outer = method.scope) :
    (m.bound method this).UpToDate (annals.opened m.scopes.size o) := by
  have hopened := h.opened (o := o) (ho ▸ hscope)
  rw [ho] at hopened
  exact hopened.defined (hthis.mono (h.within_opened o) (.opened m _)) _ _

/-- **A class is made** behind its superclass and the scope of its methods. -/
theorem made (h : m.UpToDate annals) {c : ClassObject} (hid : c.id = m.nextObject)
    (hsuper : ∀ parent, c.superclass = some parent → parent.OnRecord annals m)
    (hmethods : ∀ name f, c.methods.get? name = some f → f.scope < m.scopes.size) :
    m.numbered.UpToDate (annals.made c) ∧ c.OnRecord (annals.made c) m.numbered := by
  have hw := h.within_made hid
  refine ⟨⟨h.numbered.toOnRecord.widen hw, h.openings, fun id hid' => ?_⟩, fun k hk => ?_⟩
  · have hlt : m.nextObject < id := hid'
    exact (if_neg (hid ▸ Nat.ne_of_gt hlt)).trans (h.classes id (Nat.le_of_lt hlt))
  · cases hk with
    | refl =>
      refine ⟨if_pos rfl, hid ▸ Nat.lt_succ_self _, fun parent hparent => ?_, hmethods⟩
      exact hid ▸ (hsuper parent hparent _ .refl).lt
    | super hc hk => exact ((hsuper _ hc).mono hw (.numbered m)) _ hk

end Machine.UpToDate

end Steps

end Lox
