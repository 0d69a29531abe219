import Lox.Proofs.Binding.Nested
import Lox.Proofs.Machine.Upholds

/-!
# `super` leads to the class around it

At every use of `super` the scopes of `super` and `this` around the method are those that belong to
the nearest enclosing class: they hold the superclass of the class that was made for the method, and
an instance of a class that descends from that one.

* `Inherits`: what `super` and `this` are in a method of a class, **`inherits_of_lawful`**;
* `Dispatched`: an activity makes the class that is recorded for it, and `super` leads where it must;
* `dispatch`: the watch for that;
* **`upholds_evaluate`**, **`upholds_execute`**: runs of every depth extend the record, and the watch
  makes no difference.
-/

namespace Lox

/-! ## What `super` and `this` are -/

/-- Around a place in a method of the class declaration `c`, the scope of `super` is the one that was
opened when the class `born` was made, it holds the superclass `parent` of that class, and in the
scope right inside it `this` is an instance of a class that descends from `born`. -/
structure Inherits (labels : Origins) (births : Births) (m : Machine) (keyword : Occurrence)
    (c : Class) (born parent : ClassObject) (this : Value) : Prop where
  /-- The distance of `super` leads to its scope, that of `this` lies one link closer. -/
  scopes : ∃ d scope inner, m.distances[keyword.id]? = some (d + 1) ∧
    m.scopes.ancestor m.current d = some inner ∧ m.scopes.parent? inner = some scope ∧
    births scope = some born ∧ MadeBy labels scope born c ∧
    m.scopes.own? scope Keyword.super.spelling = some (.class parent) ∧
    m.scopes.own? inner Keyword.this.spelling = some this
  superclass : born.superclass = some parent
  descends : ∃ id cls, this = .instance id cls ∧ cls.DescendsFrom born

section Inherits

variable {sites : List (Site × Mark)} {labels : Origins} {births final : Births} {m : Machine}
  {keyword : Occurrence} {method : Token} {c : Class} {born parent : ClassObject} {this : Value}

theorem Scopes.ancestor_succ_eq {α : Type} {s : Scopes α} {k inner : ScopeId} {d : Nat}
    (h : s.ancestor k d = some inner) : s.ancestor k (d + 1) = s.parent? inner := by
  induction d generalizing k with
  | zero =>
    cases h
    simp [Scopes.ancestor]
  | succ d ih =>
    obtain ⟨k', hp, hk'⟩ := Option.bind_eq_some_iff.mp h
    exact (s.ancestor_succ hp (d + 1)).trans (ih hk')

/-- **Where `super` may stand, it leads to the nearest enclosing class.** -/
theorem inherits_of_lawful (hn : AllNested sites) (hr : m.Rooted births labels) {fuel : Nat}
    (hl : Lawful sites labels m (.evaluate fuel (.super keyword method))) :
    ∃ p c born parent this, (p, .super keyword) ∈ sites ∧ p.class? = some c ∧
      Inherits labels births m keyword c born parent this := by
  obtain ⟨-, known, o, hsub, ho, hg, p, hm, hs⟩ := hl
  have hmem : (p, Mark.super keyword) ∈ known := hs (by simp [Expr.sites, Site.mark, Expr.marks])
  obtain ⟨d, hthis, hd, hsuper, -⟩ := hg.legal _ hmem
  obtain ⟨c, chain, hdrop, hclass⟩ := (hn _ (hsub hmem)).class?_eq hthis hsuper
  obtain ⟨inner, hinner, -, hown⟩ := reaches_of_distance? hm hthis
  obtain ⟨scope, hscope, hlabel, hown'⟩ := reaches_of_distance? hm hsuper
  obtain ⟨this, hthis⟩ := Option.isSome_iff_exists.mp hown
  obtain ⟨v, hv⟩ := Option.isSome_iff_exists.mp hown'
  have hparent := (Scopes.ancestor_succ_eq hinner).symm.trans hscope
  obtain ⟨born, hborn⟩ := hr.super scope v hv
  obtain ⟨-, ⟨c', hmade⟩, parent, hsuperclass, hbound⟩ := hr.made scope born hborn
  obtain ⟨id, cls, rfl, hdescends⟩ := hr.this inner this hthis
  -- the label of the scope is that of the enclosing class, which made the class on record
  have hregions : p.regions.drop (d + 1) = .super c :: chain := by
    have htail := congrArg (List.drop 1) hdrop
    rwa [List.drop_drop] at htail
  have hc : c' = c := by
    obtain ⟨chain', hlabel'⟩ := hmade.label
    obtain ⟨hlt, hlabel⟩ := List.getElem?_eq_some_iff.mp hlabel
    have hsame : labels[scope]? = some (p.regions.drop (d + 1)) := by
      rw [← hlabel]
      exact List.prefix_iff_getElem?.mp ho scope hlt
    rw [hregions] at hsame
    cases hlabel'.symm.trans hsame
    rfl
  subst hc
  exact ⟨p, c', born, parent, _, hsub hmem, hclass, ⟨d, scope, inner, hd, hinner, hparent, hborn,
    hmade, hbound, hthis⟩, hsuperclass, id, cls, rfl, hdescends _ _ hparent hborn⟩

/-- `super` looks up the method from the superclass on, and binds it to what `this` is. -/
theorem Inherits.superMethod_eq (h : Inherits labels births m keyword c born parent this)
    (method : Token) :
    Eval.superMethod keyword method m =
      match parent.method? method.lexeme with
      | some found => Eval.bindValue found this m
      | none => .error (.failure (.problem (.undefinedProperty method.lexeme) method.position)) m := by
  obtain ⟨⟨d, scope, inner, hd, hinner, hparent, -, -, hsuper, hthis⟩, -, -⟩ := h
  have hscope := (Scopes.ancestor_succ_eq hinner).trans hparent
  rw [Eval.superMethod, get_bind]
  simp only [hd, Scopes.getAt_eq _ hscope, Scopes.getAt_eq _ hinner, hsuper, hthis]
  cases parent.method? method.lexeme <;> rfl

end Inherits

/-- The class that an execution of a declaration makes when it has read the superclass. -/
def Machine.newClass (m : Machine) (c : Class) (parent : ClassObject) : ClassObject :=
  ⟨m.nextObject, c.name.lexeme, some parent, Eval.methodTable m.scopes.size c.methods⟩

/-- An activity is what the record of classes says. -/
structure Dispatched (sites : List (Site × Mark)) (labels : Origins) (births : Births) (m : Machine)
    (a : Activity) : Prop where
  /-- What an activity opens is labelled by it. -/
  opened : Labelled labels (a.Opens m)
  /-- The class that is made is the one on record for the scope of `super` that is opened, and the
  declaration binds its name to it. -/
  made : ∀ fuel c use parent, a = .execute (fuel + 1) (.class c) → c.superclass = some use →
    Eval.read use m = .ok (.class parent) m → births m.scopes.size = some (m.newClass c parent) ∧
      ∃ m', Eval.execute (fuel + 1) (.class c) m = .ok .normal m' ∧
        m'.scopes.own? m.current c.name.lexeme = some (.class (m.newClass c parent))
  /-- `super` leads to the nearest enclosing class, and to the first method of its superclass, bound
  to what `this` is. -/
  found : ∀ fuel keyword method, a = .evaluate fuel (.super keyword method) →
    ∃ p c born parent this, (p, .super keyword) ∈ sites ∧ p.class? = some c ∧
      Inherits labels births m keyword c born parent this ∧
      Eval.superMethod keyword method m =
        match parent.method? method.lexeme with
        | some found => Eval.bindValue found this m
        | none =>
          .error (.failure (.problem (.undefinedProperty method.lexeme) method.position)) m

/-- Every activity must be what the record says. -/
def dispatch (sites : List (Site × Mark)) (labels : Origins) (final : Record) : Watch where
  allowed a m := Dispatched sites labels final.births m a
  signal := final.signal

/-! ## Classes are made -/

section Classes

variable {sites : List (Site × Mark)} {labels : Origins} {births : Births} {m : Machine}
  {c : Class} {parent : ClassObject} {use : Occurrence} {fuel : Nat}

/-- The machine with one more numbered object. -/
def Machine.numbered (m : Machine) : Machine := { m with nextObject := m.nextObject + 1 }

theorem Machine.Rooted.numbered (hr : m.Rooted births labels) : m.numbered.Rooted births labels :=
  hr.of_eq rfl rfl

theorem Machine.Outlives.numbered : m.Outlives births m.numbered births := .of_size (Nat.le_refl _)

theorem Eval.read_cases (use : Occurrence) (m : Machine) :
    (∃ v k, read use m = .ok v m ∧ m.scopes.own? k use.name.lexeme = some v) ∨
      ∃ e, read use m = .error e m := by
  rw [read, locate, bind_assoc, get_bind]
  cases m.holder? use with
  | none => exact .inr ⟨_, rfl⟩
  | some k =>
    rw [pure_bind, get_bind]
    cases hv : m.scopes.own? k use.name.lexeme with
    | none => exact .inr ⟨_, rfl⟩
    | some v => exact .inl ⟨v, k, rfl, hv⟩

theorem Eval.declareClass_of_read (hc : c.superclass = some use)
    (hread : read use m = .ok (.class parent) m) :
    declareClass c m = .ok () ((m.inherited parent).numbered.defined m.current c.name.lexeme
      (.class (m.newClass c parent))) := by
  have hsuper : superclassValue c.superclass m = .ok (some parent) m := by
    rw [hc, superclassValue, bind_of_ok hread]
    rfl
  rw [declareClass, bind_of_ok hsuper]
  rfl

theorem Eval.declareClass_of_none (hc : c.superclass = none) :
    declareClass c m = .ok () (m.numbered.defined m.current c.name.lexeme (.class
      ⟨m.nextObject, c.name.lexeme, none, methodTable m.current c.methods⟩)) := by
  rw [declareClass, hc]
  rfl

theorem Eval.declareClass_of_error (hc : c.superclass = some use)
    (hread : ∀ parent, read use m ≠ .ok (.class parent) m) :
    ∃ e, declareClass c m = .error e m := by
  have hsuper : ∃ e, superclassValue c.superclass m = .error e m := by
    rw [hc, superclassValue]
    rcases read_cases use m with ⟨v, -, hv, -⟩ | ⟨e, he⟩
    · rw [bind_of_ok hv]
      cases v with
      | «class» parent => exact absurd hv (hread parent)
      | _ => exact ⟨_, rfl⟩
    · exact ⟨e, bind_of_error he⟩
  obtain ⟨e, he⟩ := hsuper
  exact ⟨e, bind_of_error he⟩

/-- The scope in which a declaration stands is no scope of `super`. -/
theorem Lawful.not_born (hn : AllNested sites) (hr : m.Rooted births labels)
    (hl : Lawful sites labels m (.execute fuel (.class c))) : births m.current = none := by
  obtain ⟨-, known, o, hsub, ho, hg, p, hm, hs⟩ := hl
  cases hborn : births m.current with
  | none => rfl
  | some born =>
    obtain ⟨-, ⟨c', ⟨chain, hlabel⟩, -, -⟩, -⟩ := hr.made _ _ hborn
    obtain ⟨f, frames, hp⟩ := hm.exists_cons
    have hnested : Nested p.frames := hn _ (hsub (hs List.mem_cons_self))
    obtain ⟨hlt, horigin⟩ := List.getElem?_eq_some_iff.mp hm.origin
    have hsame : labels[m.current]? = some (p.frames.map Frame.region) := by
      rw [← horigin]
      exact List.prefix_iff_getElem?.mp ho _ hlt
    rw [hp] at hsame
    have hregion := (List.cons.inj (Option.some.inj (hlabel.symm.trans hsame))).1
    exact absurd hregion.symm (hnested.head_ne_super hp c')

end Classes

/-! ## Expressions -/

/-- What a statement ends with owns its methods. -/
def Completion.Rooted (births : Births) (m : Machine) : Completion → Prop
  | .return v => v.Rooted births m
  | _ => True

theorem Value.Plain.rooted {v : Value} (h : v.Plain) {births : Births} {m : Machine} :
    v.Rooted births m := by
  cases v <;> trivial

section Rules

variable {sites : List (Site × Mark)} {labels : Origins} {signal : Interrupt} {births : Births}
  {m : Machine} {fuel : Nat}

theorem upholds_read (hr : m.Rooted births labels) (use : Occurrence) :
    Upholds labels signal (Eval.read use) (fun _ => Eval.read use) m births
      fun v m' births' => v.Rooted births' m' := by
  rcases Eval.read_cases use m with ⟨v, k, hv, hown⟩ | ⟨e, he⟩
  · exact .step m hv (Nat.le_refl _) hr (hr.values k _ v hown)
  · exact .halt he hr

theorem upholds_assign (hr : m.Rooted births labels) {target : Occurrence} {v : Value}
    (hname : ∀ w : Keyword, target.name.lexeme ≠ w.spelling) (hv : v.Rooted births m) :
    Upholds labels signal (Eval.assign target v) (fun _ => Eval.assign target v) m births
      fun _ _ _ => True := by
  have hassign : Eval.assign target v m =
      ((m.holder? target).elim (Eval.fail (m.missing target) target.name)
        fun holder => Eval.define holder target.name.lexeme v) m := by
    rw [Eval.assign, Eval.locate, bind_assoc, get_bind]
    cases m.holder? target <;> rfl
  cases hh : m.holder? target with
  | some holder =>
    rw [hh] at hassign
    exact .step _ hassign (m.le_size_defined _ _ _) (hr.defined hname hv) trivial
  | none =>
    rw [hh] at hassign
    exact .halt hassign hr

theorem upholds_bindValue (hr : m.Rooted births labels) {method : Closure} {id : InstanceId}
    {c : ClassObject} (hc : c.Rooted births m) (hscope : method.scope < m.scopes.size)
    (hdescends : ∀ born, births method.scope = some born → c.DescendsFrom born) {x : Eval Value}
    (hx : x m = Eval.bindValue method (.instance id c) m) :
    Upholds labels signal x (fun _ => x) m births fun v m' births' => v.Rooted births' m' :=
  .step (m.bound method (.instance id c)).numbered hx (m.le_size_bound _ _)
    (hr.bound hc hscope hdescends).numbered trivial

theorem upholds_getProperty (hr : m.Rooted births labels) {object : Value}
    (hobject : object.Rooted births m) (name : Token) :
    Upholds labels signal (Eval.getProperty object name) (fun _ => Eval.getProperty object name) m
      births fun v m' births' => v.Rooted births' m' := by
  cases object with
  | «instance» id c =>
    unfold Eval.getProperty
    refine .get ?_
    cases hf : (m.fields[id]?).bind (·.get? name.lexeme) with
    | some v =>
      obtain ⟨b, hb, hv⟩ := Option.bind_eq_some_iff.mp hf
      exact .pure hr (hr.fields id b _ v hb hv)
    | none =>
      cases hmethod : c.method? name.lexeme with
      | some method =>
        obtain ⟨hscope, hdescends⟩ := ClassObject.Rooted.descends hobject hmethod
        exact upholds_bindValue hr hobject hscope hdescends rfl
      | none => exact upholds_fail hr _ _
  | _ => exact upholds_fail hr _ _

/-- **`super` binds a method to what `this` is**, an instance of a class that descends from the
owner of the method. -/
theorem upholds_superMethod (hr : m.Rooted births labels) {keyword : Occurrence} {method : Token}
    {c : Class} {born parent : ClassObject} {this : Value}
    (h : Inherits labels births m keyword c born parent this) :
    Upholds labels signal (Eval.superMethod keyword method)
      (fun _ => Eval.superMethod keyword method) m births
      fun v m' births' => v.Rooted births' m' := by
  have heq := h.superMethod_eq method
  obtain ⟨⟨-, scope, inner, -, -, -, -, -, hsuper, hthis⟩, hparent, id, cls, rfl, hborn⟩ := h
  have hcls : cls.Rooted births m := hr.values inner _ _ hthis
  have hroot : parent.Rooted births m := hr.values scope _ _ hsuper
  cases hfound : parent.method? method.lexeme with
  | some found =>
    rw [hfound] at heq
    obtain ⟨hscope, hdescends⟩ := hroot.descends hfound
    have hchain (k : ClassObject) (hk : births found.scope = some k) : cls.DescendsFrom k :=
      hborn.trans (.super hparent (hdescends k hk))
    exact upholds_bindValue hr hcls hscope hchain heq
  | none =>
    rw [hfound] at heq
    exact .halt heq hr

/-! ## Calls -/

section Parts

variable {eval : Expr → Eval Value} {evalW : Record → Expr → Eval Value}
  {run : Stmt → Eval Completion} {runW : Record → Stmt → Eval Completion}
  {call : Value → List Value → Token → Eval Value}
  {callW : Record → Value → List Value → Token → Eval Value}

variable (labels signal) in
/-- Evaluating expressions extends the record. -/
def EvalUpholds (eval : Expr → Eval Value) (watched : Record → Expr → Eval Value) : Prop :=
  ∀ {m births} (e : Expr), m.Rooted births labels →
    Upholds labels signal (eval e) (fun final => watched final e) m births
      fun v m' births' => v.Rooted births' m'

variable (labels signal) in
/-- Running statements extends the record. -/
def RunUpholds (run : Stmt → Eval Completion) (watched : Record → Stmt → Eval Completion) : Prop :=
  ∀ {m births} (s : Stmt), m.Rooted births labels →
    Upholds labels signal (run s) (fun final => watched final s) m births
      fun c m' births' => c.Rooted births' m'

variable (labels signal) in
/-- Calling values extends the record. -/
def CallUpholds (call : Value → List Value → Token → Eval Value)
    (watched : Record → Value → List Value → Token → Eval Value) : Prop :=
  ∀ {m births} (callee : Value) (arguments : List Value) (paren : Token), m.Rooted births labels →
    callee.Rooted births m → (∀ v ∈ arguments, v.Rooted births m) →
    Upholds labels signal (call callee arguments paren)
      (fun final => watched final callee arguments paren) m births
      fun v m' births' => v.Rooted births' m'

theorem upholds_runAll (hrun : RunUpholds labels signal run runW) (ss : List Stmt)
    (hr : m.Rooted births labels) :
    Upholds labels signal (Eval.runAll run ss) (fun final => Eval.runAll (runW final) ss) m births
      fun c m' births' => c.Rooted births' m' := by
  induction ss generalizing m births with
  | nil => exact .pure hr trivial
  | cons s rest ih =>
    refine (hrun s hr).bind fun c m₁ births₁ _ hr₁ hc => ?_
    cases c with
    | normal => exact ih hr₁
    | _ => exact .pure hr₁ hc

theorem upholds_defineAll {k : ScopeId} {params : List Token} {arguments : List Value}
    (hr : m.Rooted births labels) (hparams : ∀ t ∈ params, ∀ w : Keyword, t.lexeme ≠ w.spelling)
    (hargs : ∀ v ∈ arguments, v.Rooted births m) :
    Upholds labels signal (Eval.defineAll k params arguments)
      (fun _ => Eval.defineAll k params arguments) m births fun _ _ _ => True := by
  induction params generalizing m births arguments with
  | nil => exact .pure hr trivial
  | cons t params ih =>
    cases arguments with
    | nil => exact .pure hr trivial
    | cons v arguments =>
      obtain ⟨ht, hparams⟩ := List.forall_mem_cons.mp hparams
      obtain ⟨hv, hargs⟩ := List.forall_mem_cons.mp hargs
      exact (upholds_define hr ht hv).bind fun _ m₁ births₁ ho hr₁ _ =>
        ih hr₁ hparams fun u hu => (hargs u hu).outlives ho

theorem upholds_invoke (hrun : RunUpholds labels signal run runW) {c : Closure}
    {arguments : List Value} (hr : m.Rooted births labels)
    (hparams : ∀ t ∈ c.declaration.params, ∀ w : Keyword, t.lexeme ≠ w.spelling)
    (hargs : ∀ v ∈ arguments, v.Rooted births m) :
    Upholds labels signal (Eval.invoke run c arguments)
      (fun final => Eval.invoke (runW final) c arguments) m births
      fun v m' births' => v.Rooted births' m' := by
  have hopen : Upholds labels signal (Eval.openScope c.scope) (fun _ => Eval.openScope c.scope) m
      births fun _ m' _ => m' = m.opened c.scope :=
    .step (m.opened c.scope) rfl (m.le_size_opened _) (hr.opened _) rfl
  refine hopen.bind fun scope m₁ births₁ ho₁ hr₁ _ => ?_
  refine (upholds_defineAll hr₁ hparams fun v hv => (hargs v hv).outlives ho₁).bind
    fun _ m₂ births₂ _ hr₂ _ => ?_
  have hr₂' : ({ m₂ with current := scope } : Machine).Rooted births₂ labels := hr₂.of_eq rfl rfl
  have hbody := upholds_runAll hrun c.declaration.body hr₂'
  have hin := hbody.within (k := scope) (m := m₂) fun ended m' births' hended => by
    cases ended with
    | «return» v => exact Value.Rooted.outlives hended (.of_size (Nat.le_refl _))
    | _ => trivial
  refine hin.bind fun ended m₃ births₃ _ hr₃ hended => ?_
  split
  · refine .get (.pure hr₃ ?_)
    cases hthis : m₃.scopes.getAt c.scope 0 Keyword.this.spelling with
    | none => trivial
    | some v =>
      obtain ⟨k, hk⟩ := Scopes.exists_own?_of_getAt _ hthis
      exact hr₃.values k _ v hk
  · cases ended with
    | «return» v => exact .pure hr₃ hended
    | _ => exact .pure hr₃ trivial

theorem Function.params_of_sites {known : List (Site × Mark)} {distances : Distances}
    {kind : FunctionKind} {p : Site} {f : Function} (hs : f.sites kind p ⊆ known)
    (hlegal : ∀ x ∈ known, x.2.Legal distances x.1) :
    ∀ t ∈ f.params, ∀ w : Keyword, t.lexeme ≠ w.spelling := by
  obtain ⟨name, params, body, span⟩ := f
  rw [Function.sites, List.append_subset] at hs
  exact fun t ht => hlegal _ (hs.1 (List.mem_map_of_mem (List.mem_map_of_mem ht)))

theorem upholds_callRule (hrun : RunUpholds labels signal run runW) {callee : Value}
    {arguments : List Value} {paren : Token} (hr : m.Rooted births labels)
    (hl : Lawful sites labels m (.call fuel callee arguments paren))
    (hcallee : callee.Rooted births m) (hargs : ∀ v ∈ arguments, v.Rooted births m) :
    Upholds labels signal (Eval.callRule run callee arguments paren)
      (fun final => Eval.callRule (runW final) callee arguments paren) m births
      fun v m' births' => v.Rooted births' m' := by
  obtain ⟨-, known, o, -, -, hg, hgood, -⟩ := hl
  cases callee with
  | function id c =>
    obtain ⟨kind, p, -, -, hs⟩ := hgood
    by_cases hlen : arguments.length = c.arity
    · simp only [Eval.callRule_function hlen]
      exact upholds_invoke hrun hr (Function.params_of_sites hs hg.legal) hargs
    · simp only [Eval.callRule, Eval.checkArity_of_ne hlen]
      exact upholds_fail hr _ _
  | native f =>
    cases f
    simp only [Eval.callRule, Eval.checkArity]
    split
    · exact upholds_readClock hr
    · exact upholds_fail hr _ _
  | «class» c =>
    by_cases hlen : arguments.length = c.arity
    · cases hi : c.initializer? with
      | none =>
        simp only [Eval.callRule_class_none hlen hi]
        exact .step _ rfl (Nat.le_refl _) hr.instantiated
          (Value.Rooted.outlives (v := .class c) hcallee (.of_size (Nat.le_refl _)))
      | some f =>
        obtain ⟨kind, p, cls, -, -, -, hs⟩ := hgood _ _ hi
        simp only [Eval.callRule_class hlen hi]
        have hfresh : Upholds labels signal (Eval.freshInstance c) (fun _ => Eval.freshInstance c) m
            births fun v _ _ => v = .instance m.fields.size c :=
          .step m.instantiated rfl (Nat.le_refl _) hr.instantiated rfl
        refine hfresh.bind fun this m₁ births₁ ho₁ hr₁ hthis => ?_
        subst hthis
        have hc₁ : c.Rooted births₁ m₁ := ClassObject.Rooted.outlives hcallee ho₁
        obtain ⟨hscope, hdescends⟩ := hc₁.descends hi
        have hbind : Upholds labels signal (Eval.bind f (.instance m.fields.size c))
            (fun _ => Eval.bind f (.instance m.fields.size c)) m₁ births₁
            fun bound _ _ => bound.declaration = f.declaration :=
          .step (m₁.bound f (.instance m.fields.size c)) rfl (m₁.le_size_bound _ _)
            (hr₁.bound hc₁ hscope hdescends) rfl
        refine hbind.bind fun bound m₂ births₂ ho₂ hr₂ hbound => ?_
        refine (upholds_invoke hrun hr₂ (hbound ▸ Function.params_of_sites hs hg.legal)
          fun v hv => (hargs v hv).outlives (ho₁.trans ho₂)).bind
          fun _ m₃ births₃ ho₃ hr₃ _ => .pure hr₃ ?_
        exact ClassObject.Rooted.outlives hc₁ (ho₂.trans ho₃)
    · simp only [Eval.callRule, Eval.checkArity_of_ne hlen]
      exact upholds_fail hr _ _
  | _ => exact upholds_fail hr _ _

/-! ## Expressions and statements -/

theorem upholds_arguments (heval : EvalUpholds labels signal eval evalW) (es : List Expr)
    (hr : m.Rooted births labels) :
    Upholds labels signal (es.mapM eval) (fun final => es.mapM (evalW final)) m births
      fun vs m' births' => ∀ v ∈ vs, v.Rooted births' m' := by
  induction es generalizing m births with
  | nil => exact .pure hr (by simp)
  | cons e rest ih =>
    simp only [List.mapM_cons]
    refine (heval e hr).bind fun v m₁ births₁ _ hr₁ hv => ?_
    refine (ih hr₁).bind fun vs m₂ births₂ ho₂ hr₂ hvs => .pure hr₂ ?_
    exact List.forall_mem_cons.mpr ⟨hv.outlives ho₂, hvs⟩

theorem upholds_evaluateRule (hn : AllNested sites) (heval : EvalUpholds labels signal eval evalW)
    (hcall : CallUpholds labels signal call callW) (e : Expr) (hr : m.Rooted births labels)
    (hl : Lawful sites labels m (.evaluate fuel e)) :
    Upholds labels signal (Eval.evaluateRule eval call e)
      (fun final => Eval.evaluateRule (evalW final) (callW final) e) m births
      fun v m' births' => v.Rooted births' m' := by
  cases e with
  | literal constant => exact .pure hr (by cases constant <;> trivial)
  | grouping inner => exact heval inner hr
  | unary op operator operand =>
    exact (heval operand hr).bind fun v m₁ births₁ _ hr₁ _ =>
      upholds_ofExcept hr₁ operator _ fun _ h => (UnaryOp.plain_of_apply h).rooted
  | binary left op operator right =>
    exact (heval left hr).bind fun a m₁ births₁ _ hr₁ _ =>
      (heval right hr₁).bind fun b m₂ births₂ _ hr₂ _ =>
        upholds_ofExcept hr₂ operator _ fun _ h => (BinaryOp.plain_of_apply h).rooted
  | logical left op operator right =>
    refine (heval left hr).bind fun a m₁ births₁ _ hr₁ ha => ?_
    split
    · exact .pure hr₁ ha
    · exact heval right hr₁
  | «variable» use => exact upholds_read hr use
  | assign target e =>
    obtain ⟨-, known, o, -, -, hg, p, -, hs⟩ := hl
    have hname : (p, Mark.name target.name) ∈ known := hs (by simp [Expr.sites, Site.mark, Expr.marks])
    refine (heval e hr).bind fun v m₁ births₁ _ hr₁ hv => ?_
    exact (upholds_assign hr₁ (hg.legal _ hname) hv).bind fun _ m₂ births₂ ho₂ hr₂ _ =>
      .pure hr₂ (hv.outlives ho₂)
  | call callee arguments paren =>
    refine (heval callee hr).bind fun f m₁ births₁ _ hr₁ hf => ?_
    refine (upholds_arguments heval arguments hr₁).bind fun vs m₂ births₂ ho₂ hr₂ hvs => ?_
    exact hcall f vs paren hr₂ (hf.outlives ho₂) hvs
  | get object name =>
    exact (heval object hr).bind fun v m₁ births₁ _ hr₁ hv => upholds_getProperty hr₁ hv name
  | set object name e =>
    refine (heval object hr).bind fun v m₁ births₁ _ hr₁ _ => ?_
    cases v with
    | «instance» id c =>
      refine (heval e hr₁).bind fun w m₂ births₂ _ hr₂ hw => ?_
      have hset : Upholds labels signal (Eval.setField id name.lexeme w)
          (fun _ => Eval.setField id name.lexeme w) m₂ births₂ fun _ _ _ => True :=
        .step _ rfl (Nat.le_refl _) (hr₂.set_field hw id name.lexeme) trivial
      exact hset.bind fun _ m₃ births₃ ho₃ hr₃ _ => .pure hr₃ (hw.outlives ho₃)
    | _ => exact .throw hr₁
  | this keyword => exact upholds_read hr keyword
  | super keyword method =>
    obtain ⟨_, _, _, _, _, -, -, h⟩ := inherits_of_lawful hn hr hl
    exact upholds_superMethod hr h

theorem upholds_optional (heval : EvalUpholds labels signal eval evalW) (e : Option Expr)
    (hr : m.Rooted births labels) :
    Upholds labels signal (Eval.optional eval e) (fun final => Eval.optional (evalW final) e) m births
      fun v m' births' => v.Rooted births' m' := by
  cases e with
  | none => exact .pure hr trivial
  | some e => exact heval e hr

theorem upholds_conditionOf (heval : EvalUpholds labels signal eval evalW) (e : Option Expr)
    (hr : m.Rooted births labels) :
    Upholds labels signal (Eval.conditionOf eval e) (fun final => Eval.conditionOf (evalW final) e) m
      births fun _ _ _ => True := by
  cases e with
  | none => exact .pure hr trivial
  | some e => exact (heval e hr).map fun _ _ _ _ => trivial

theorem upholds_loop {condition : Eval Bool} {body : Eval Completion} {step : Eval Unit}
    {conditionW : Record → Eval Bool} {bodyW : Record → Eval Completion}
    {stepW : Record → Eval Unit}
    (hc : ∀ {m births}, m.Rooted births labels →
      Upholds labels signal condition conditionW m births fun _ _ _ => True)
    (hb : ∀ {m births}, m.Rooted births labels →
      Upholds labels signal body bodyW m births fun c m' births' => c.Rooted births' m')
    (hs : ∀ {m births}, m.Rooted births labels →
      Upholds labels signal step stepW m births fun _ _ _ => True)
    (fuel : Nat) (hr : m.Rooted births labels) :
    Upholds labels signal (Eval.loop condition body step fuel)
      (fun final => Eval.loop (conditionW final) (bodyW final) (stepW final) fuel) m births
      fun c m' births' => c.Rooted births' m' := by
  induction fuel generalizing m births with
  | zero => exact .throw hr
  | succ fuel ih =>
    refine (hc hr).bind fun goesOn m₁ births₁ _ hr₁ _ => ?_
    cases goesOn with
    | false => exact .pure hr₁ trivial
    | true =>
      refine (hb hr₁).bind fun ended m₂ births₂ _ hr₂ hended => ?_
      cases ended with
      | normal => exact (hs hr₂).bind fun _ _ _ _ hr₃ _ => ih hr₃
      | «continue» => exact (hs hr₂).bind fun _ _ _ _ hr₃ _ => ih hr₃
      | «break» => exact .pure hr₂ trivial
      | «return» v => exact .pure hr₂ hended

theorem Completion.Rooted.current {c : Completion} (h : c.Rooted births m) (k : ScopeId) :
    c.Rooted births { m with current := k } := by
  cases c with
  | «return» v => exact Value.Rooted.outlives h (.of_size (Nat.le_refl _))
  | _ => trivial

theorem Lawful.declared {s : Stmt} (hl : Lawful sites labels m (.execute fuel s)) (name : Token)
    (hname : ∀ p : Site, (p, Mark.name name) ∈ s.sites p) :
    ∀ w : Keyword, name.lexeme ≠ w.spelling := by
  obtain ⟨-, known, o, -, -, hg, p, -, hs⟩ := hl
  exact hg.legal _ (hs (hname p))

theorem Lawful.lt_size {s : Stmt} (hl : Lawful sites labels m (.execute fuel s)) :
    m.current < m.scopes.size := by
  obtain ⟨-, known, o, -, -, hg, p, hm, -⟩ := hl
  exact hm.lt_size hg

/-- **A class is declared**, and recorded if it has a superclass. -/
theorem ensures_declareClass (hn : AllNested sites) {c : Class} (hr : m.Rooted births labels)
    (hl : Lawful sites labels m (.execute fuel (.class c))) :
    Ensures (Eval.declareClass c) m
      (fun _ m' => ∃ births', m.Outlives births m' births' ∧ m'.Rooted births' labels ∧
        ∀ use parent, c.superclass = some use → Eval.read use m = .ok (.class parent) m →
          births' m.scopes.size = some (m.newClass c parent))
      (fun _ m' => m' = m ∧ ∀ use parent, c.superclass = some use →
        Eval.read use m ≠ .ok (.class parent) m) := by
  have hname : ∀ w : Keyword, c.name.lexeme ≠ w.spelling := hl.declared _ fun p => by
    obtain ⟨name, superclass, methods, span⟩ := c
    simp [Stmt.sites, Class.sites]
  cases hsuper : c.superclass with
  | none =>
    rw [ensures_of_eq_ok (Eval.declareClass_of_none hsuper)]
    -- the methods stand in the current scope, which is no scope of `super`
    refine ⟨births, .trans .numbered .defined, hr.numbered.defined hname
      (ClassObject.Rooted.plain rfl fun name f hf => ?_), nofun⟩
    obtain ⟨_, _, _, hscope⟩ := exists_of_methodTable hf
    rw [hscope]
    exact ⟨hl.lt_size, hl.not_born hn hr⟩
  | some use =>
    by_cases hread : ∃ parent, Eval.read use m = .ok (.class parent) m
    · obtain ⟨parent, hread⟩ := hread
      rw [ensures_of_eq_ok (Eval.declareClass_of_read hsuper hread)]
      have hparent : parent.Rooted births m := by
        rcases Eval.read_cases use m with ⟨v, k, hv, hown⟩ | ⟨e, he⟩
        · cases hread.symm.trans hv
          exact hr.values k _ _ hown
        · cases hread.symm.trans he
      obtain ⟨_, chain, rfl, -, hlabel⟩ := hl.1 _ _ _ (.super hsuper hread)
      have hmade : MadeBy labels m.scopes.size (m.newClass c parent) c := ⟨⟨chain, hlabel⟩, rfl, rfl⟩
      obtain ⟨hr', hborn⟩ := hr.inherited hmade rfl hparent
      have hclass : Value.Rooted (births.record m.scopes.size (m.newClass c parent))
          (m.inherited parent).numbered (.class (m.newClass c parent)) := hborn.outlives .numbered
      refine ⟨births.record m.scopes.size (m.newClass c parent), .trans .inherited (.trans .numbered
        .defined), hr'.numbered.defined hname hclass, ?_⟩
      intro use' parent' huse hread'
      cases huse
      cases hread.symm.trans hread'
      exact if_pos rfl
    · have hnone (parent : ClassObject) : Eval.read use m ≠ .ok (.class parent) m :=
        fun h => hread ⟨parent, h⟩
      obtain ⟨e, he⟩ := Eval.declareClass_of_error hsuper hnone
      rw [Ensures, he]
      refine ⟨rfl, fun use' parent huse => ?_⟩
      cases huse
      exact hnone parent

theorem upholds_executeRule (heval : EvalUpholds labels signal eval evalW)
    (hrun : RunUpholds labels signal run runW) (depth : Nat) (s : Stmt) (hr : m.Rooted births labels)
    (hl : Lawful sites labels m (.execute fuel s)) (hs : ∀ c, s ≠ .class c) :
    Upholds labels signal (Eval.executeRule eval run depth s)
      (fun final => Eval.executeRule (evalW final) (runW final) depth s) m births
      fun c m' births' => c.Rooted births' m' := by
  have hopen : Upholds labels signal (Eval.openScope m.current) (fun _ => Eval.openScope m.current) m
      births fun _ _ _ => True :=
    .step (m.opened m.current) rfl (m.le_size_opened _) (hr.opened _) trivial
  cases s with
  | expression e => exact (heval e hr).bind fun _ _ _ _ hr₁ _ => .pure hr₁ trivial
  | print e =>
    exact (heval e hr).bind fun v _ _ _ hr₁ _ =>
      (upholds_print hr₁ v.text).bind fun _ _ _ _ hr₂ _ => .pure hr₂ trivial
  | var name initializer =>
    have hname := hl.declared name fun p => by simp [Stmt.sites]
    exact (upholds_optional heval initializer hr).bind fun v _ _ _ hr₁ hv =>
      (upholds_defineHere hr₁ hname hv).bind fun _ _ _ _ hr₂ _ => .pure hr₂ trivial
  | block body =>
    refine .get (hopen.bind fun scope m₁ births₁ _ hr₁ _ => ?_)
    exact (upholds_runAll hrun body (m := { m₁ with current := scope }) (hr₁.of_eq rfl rfl)).within
      fun c m' births' hc => Completion.Rooted.current hc _
  | ifElse condition thenBranch elseBranch =>
    refine (heval condition hr).bind fun v m₁ births₁ _ hr₁ _ => ?_
    split
    · exact hrun thenBranch hr₁
    · cases elseBranch with
      | none => exact .pure hr₁ trivial
      | some s => exact hrun s hr₁
  | whileLoop condition body =>
    exact upholds_loop (fun hr => (heval condition hr).map fun _ _ _ _ => trivial)
      (fun hr => hrun body hr) (fun hr => .pure hr trivial) depth hr
  | forLoop initializer condition increment body =>
    have hloop {m births} (hr : m.Rooted births labels) :
        Upholds labels signal
          (Eval.loop (Eval.conditionOf eval condition) (run body)
            (Eval.optional eval increment >>= fun _ => pure ()) depth)
          (fun final => Eval.loop (Eval.conditionOf (evalW final) condition) (runW final body)
            (Eval.optional (evalW final) increment >>= fun _ => pure ()) depth) m births
          fun c m' births' => c.Rooted births' m' :=
      upholds_loop (fun hr => upholds_conditionOf heval condition hr) (fun hr => hrun body hr)
        (fun hr => (upholds_optional heval increment hr).bind fun _ _ _ _ hr₁ _ => .pure hr₁ trivial)
        depth hr
    refine .get (hopen.bind fun scope m₁ births₁ _ hr₁ _ => ?_)
    have hr₂ : ({ m₁ with current := scope } : Machine).Rooted births₁ labels := hr₁.of_eq rfl rfl
    refine Upholds.within ?_ fun c m' births' hc => Completion.Rooted.current hc _
    cases initializer with
    | none => exact hloop hr₂
    | some s => exact (hrun s hr₂).bind fun _ _ _ _ hr₃ _ => hloop hr₃
  | function declaration =>
    have hname := hl.declared declaration.name fun p => by simp [Stmt.sites]
    have hdeclare : Upholds labels signal (Eval.declareFunction declaration)
        (fun _ => Eval.declareFunction declaration) m births fun _ _ _ => True := by
      unfold Eval.declareFunction
      exact .get ((upholds_freshObject hr).bind fun id _ _ _ hr₁ _ =>
        upholds_defineHere hr₁ hname trivial)
    exact hdeclare.bind fun _ _ _ _ hr₁ _ => .pure hr₁ trivial
  | «class» c => exact absurd rfl (hs c)
  | «return» keyword value =>
    exact (upholds_optional heval value hr).bind fun v _ _ _ hr₁ hv => .pure hr₁ hv
  | «break» keyword => exact .pure hr trivial
  | «continue» keyword => exact .pure hr trivial

end Parts

/-! ## Watched runs -/

theorem Inherits.mono {final : Births} {keyword : Occurrence} {c : Class} {born parent : ClassObject}
    {this : Value} (h : Inherits labels births m keyword c born parent this)
    (hw : births.Within final) : Inherits labels final m keyword c born parent this := by
  obtain ⟨⟨d, scope, inner, hd, hinner, hparent, hborn, hrest⟩, hsuper, hdescends⟩ := h
  exact ⟨⟨d, scope, inner, hd, hinner, hparent, hw _ _ hborn, hrest⟩, hsuper, hdescends⟩

/-- What begins at a site of the program is what every longer record says, as long as the class that
it makes is on that record. -/
theorem Lawful.dispatched (hn : AllNested sites) (hr : m.Rooted births labels) {a : Activity}
    (hl : Lawful sites labels m a) {final : Births} (hw : births.Within final)
    (hmade : ∀ fuel c use parent, a = .execute (fuel + 1) (.class c) → c.superclass = some use →
      Eval.read use m = .ok (.class parent) m → final m.scopes.size = some (m.newClass c parent)) :
    Dispatched sites labels final m a := by
  refine ⟨hl.1, fun fuel c use parent ha huse hread => ?_, fun fuel keyword method ha => ?_⟩
  · refine ⟨hmade fuel c use parent ha huse hread, ?_⟩
    subst ha
    have hlt : m.current < (m.inherited parent).numbered.scopes.size :=
      Nat.lt_trans hl.lt_size (Nat.lt_of_lt_of_eq (Nat.lt_succ_self _) Machine.size_inherited.symm)
    refine ⟨_, bind_of_ok (Eval.declareClass_of_read huse hread), ?_⟩
    exact (Machine.own?_defined hlt _ _).trans (if_pos ⟨rfl, rfl⟩)
  · subst ha
    obtain ⟨p, c, born, parent, this, hp, hc, h⟩ := inherits_of_lawful hn hr hl
    exact ⟨p, c, born, parent, this, hp, hc, h.mono hw, h.superMethod_eq method⟩

theorem upholds_class (hn : AllNested sites) (c : Class) (hr : m.Rooted births labels)
    {eval : Expr → Eval Value} {evalW : Record → Expr → Eval Value} {run : Stmt → Eval Completion}
    {runW : Record → Stmt → Eval Completion} :
    Upholds labels signal
      (Eval.watched (beginning sites ⟨labels, signal⟩) (.execute (fuel + 1) (.class c))
        (Eval.executeRule eval run fuel (.class c)))
      (fun final => Eval.watched (dispatch sites labels final) (.execute (fuel + 1) (.class c))
        (Eval.executeRule (evalW final) (runW final) fuel (.class c))) m births
      fun c m' births' => c.Rooted births' m' := by
  by_cases hl : Lawful sites labels m (.execute (fuel + 1) (.class c))
  · have hdeclared := ensures_declareClass hn hr hl
    unfold Upholds Ensures
    rw [Eval.watched_of_allowed (w := beginning sites ⟨labels, signal⟩) hl]
    cases hx : Eval.declareClass c m with
    | ok u m' =>
      obtain ⟨births', ho, hr', hmade⟩ := hdeclared.ok_of_eq hx
      have hrule : Eval.executeRule eval run fuel (.class c) m = .ok .normal m' := bind_of_ok hx
      rw [hrule]
      refine ⟨births', ho, hr', trivial, fun final hfinal => ?_⟩
      have hallowed : Dispatched sites labels final.births m (.execute (fuel + 1) (.class c)) :=
        hl.dispatched hn hr ((ho.within hr).trans hfinal) fun _ c' use parent ha huse hread => by
          cases ha
          exact hfinal _ _ (hmade use parent huse hread)
      exact (Eval.watched_of_allowed (w := dispatch sites labels final) hallowed).trans
        (bind_of_ok hx)
    | error e m' =>
      obtain ⟨rfl, hnone⟩ := hdeclared.halt_of_eq hx
      have hrule : Eval.executeRule eval run fuel (.class c) m' = .error e m' := bind_of_error hx
      rw [hrule]
      refine .inr ⟨births, .refl, hr, fun final hfinal => ?_⟩
      have hallowed : Dispatched sites labels final.births m' (.execute (fuel + 1) (.class c)) :=
        hl.dispatched hn hr hfinal fun _ c' use parent ha huse hread => by
          cases ha
          exact absurd hread (hnone use parent huse)
      exact (Eval.watched_of_allowed (w := dispatch sites labels final) hallowed).trans
        (bind_of_error hx)
  · have hstop : Eval.watched (beginning sites ⟨labels, signal⟩) (.execute (fuel + 1) (.class c))
        (Eval.executeRule eval run fuel (.class c)) m = .error signal m := if_neg hl
    rw [Upholds, Ensures, hstop]
    exact .inl rfl

/-- **Runs of every depth extend the record of classes**, and to watch for what is on record makes no
difference. -/
theorem upholds_runs (hn : AllNested sites) (fuel : Nat) :
    EvalUpholds labels signal (Eval.watchedEvaluate (beginning sites ⟨labels, signal⟩) fuel)
        (fun final => Eval.watchedEvaluate (dispatch sites labels final) fuel) ∧
      RunUpholds labels signal (Eval.watchedExecute (beginning sites ⟨labels, signal⟩) fuel)
        (fun final => Eval.watchedExecute (dispatch sites labels final) fuel) ∧
      CallUpholds labels signal (Eval.watchedCall (beginning sites ⟨labels, signal⟩) fuel)
        (fun final => Eval.watchedCall (dispatch sites labels final) fuel) := by
  induction fuel with
  | zero => exact ⟨fun _ hr => .throw hr, fun _ hr => .throw hr, fun _ _ _ hr _ _ => .throw hr⟩
  | succ fuel ih =>
    obtain ⟨heval, hrun, hcall⟩ := ih
    refine ⟨fun e hr => ?_, fun s hr => ?_, fun callee arguments paren hr hcallee hargs => ?_⟩
    · exact .watched rfl hr (upholds_evaluateRule hn heval hcall e hr) fun hl final hw =>
        hl.dispatched hn hr hw nofun
    · by_cases hs : ∃ c, s = .class c
      · obtain ⟨c, rfl⟩ := hs
        exact upholds_class hn c hr
      · have hne (c : Class) : s ≠ .class c := fun h => hs ⟨c, h⟩
        refine .watched rfl hr (fun hl => upholds_executeRule heval hrun fuel s hr hl hne)
          fun hl final hw => hl.dispatched hn hr hw fun _ c _ _ ha => ?_
        cases ha
        exact absurd rfl (hne c)
    · exact .watched rfl hr (fun hl => upholds_callRule hrun hr hl hcallee hargs) fun hl final hw =>
        hl.dispatched hn hr hw nofun

theorem upholds_evaluate (hn : AllNested sites) (fuel : Nat) :
    EvalUpholds labels signal (Eval.watchedEvaluate (beginning sites ⟨labels, signal⟩) fuel)
      (fun final => Eval.watchedEvaluate (dispatch sites labels final) fuel) :=
  (upholds_runs hn fuel).1

theorem upholds_execute (hn : AllNested sites) (fuel : Nat) :
    RunUpholds labels signal (Eval.watchedExecute (beginning sites ⟨labels, signal⟩) fuel)
      (fun final => Eval.watchedExecute (dispatch sites labels final) fuel) :=
  (upholds_runs hn fuel).2.1

end Rules

end Lox
