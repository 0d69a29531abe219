import Lox.Proofs.Binding.Renamed
import Lox.Proofs.Machine.Paired
import Lox.Proofs.Machine.SafeRun

/-!
# Values and machines of a program with another name in it

Two runs, of a program and of the same program with another name for one of its symbols, open the
same scopes. In the scopes that declare the symbol the second run binds the new name to what the first
one binds the old name to, and in all other scopes both bind the same names.

* `Renamed`: a program and another name for a symbol of it, such that every use is found where it was;
* `ScopeFact`, `Knowledge`: what stays true of a scope, once it is;
* `Renamed.Shows`, `Renamed.Stands`: a scope is the instance of a frame, a chain of scopes those of the
  frames of a site;
* `Closure.Respells`, `Value.Respells`, …: values of the two runs that correspond;
* `Renamed.Bound`: two names that mean the same in a scope, **`Renamed.Stands.bound_of_ancestor`**,
  `Renamed.Stands.bound_globals`: the spellings of a use do, wherever it is looked up;
* `Renamed.Links`: names that mean the same are bound to corresponding values,
  **`Renamed.Links.bind`**: and go on to when one is bound anew;
* `Renamed.Joins`: two machines with corresponding contents.
-/

namespace Lox

/-- A program, another name for one of its symbols, and where a run of the program and of the other
one look for the bindings of the uses. -/
structure Renamed where
  respelling : Respelling
  program : List Stmt
  distances : Distances
  distances' : Distances
  agrees : ∀ x ∈ programSites program, Site.Agrees respelling program distances x
  same : ∀ x ∈ programSites program, ∀ use ∈ x.2.occurrence?,
    distances'[use.id]? = distances[use.id]?
  words : ∀ k : Keyword, respelling.old ≠ k.spelling ∧ respelling.new ≠ k.spelling

/-! ## Scopes -/

/-- What stays true of a scope, once it is. -/
inductive ScopeFact where
  | within (scope outer : ScopeId)
  /-- The scope does not declare the symbol. -/
  | apart (scope : ScopeId)
  | owned (scope : ScopeId)
  /-- The symbol was bound in the scope. -/
  | held (scope : ScopeId)

/-- The scope that a fact is about. -/
def ScopeFact.scope : ScopeFact → ScopeId
  | .within scope _ | .apart scope | .owned scope | .held scope => scope

/-- What is known of the scopes of two runs. -/
abbrev Knowledge := ScopeFact → Prop

/-- Something is known of a scope. -/
def Knowledge.Knows (K : Knowledge) (scope : ScopeId) : Prop := ∃ fact, K fact ∧ fact.scope = scope

theorem Knowledge.Knows.mono {K K₁ : Knowledge} {scope : ScopeId} (h : K.Knows scope)
    (hK : K ≤ K₁) : K₁.Knows scope := by
  obtain ⟨fact, hfact, hscope⟩ := h
  exact ⟨fact, hK fact hfact, hscope⟩

/-- A scope declares the symbol or does not, and the symbol is bound only where it is declared. -/
structure Knowledge.Consistent (K : Knowledge) : Prop where
  disjoint : ∀ {scope}, K (.owned scope) → ¬ K (.apart scope)
  owned : ∀ {scope}, K (.held scope) → K (.owned scope)

namespace Renamed

variable (g : Renamed)

/-- The scopes of the program with the symbol. -/
def owns (region : Region) : Bool := g.respelling.owns g.program region

/-- A scope was opened as an instance of a region. -/
def opened (K : Knowledge) (scope outer : ScopeId) (region : Region) : Knowledge := fun fact =>
  K fact ∨ fact = .within scope outer ∨ fact = if g.owns region then .owned scope else .apart scope

/-- A name was bound in a scope. -/
def declared (K : Knowledge) (scope : ScopeId) (t : Token) : Knowledge := fun fact =>
  K fact ∨ g.respelling.picks t = true ∧ fact = .held scope

/-- A scope is the instance of a frame. -/
structure Shows (K : Knowledge) (scope : ScopeId) (f : Frame) : Prop where
  apart : g.owns f.region = false → K (.apart scope)
  owned : g.owns f.region = true → K (.owned scope)
  held : g.owns f.region = true → g.respelling.old ∈ f.names → K (.held scope)

/-- The chain of a scope is made of instances of the frames. -/
inductive Stands (K : Knowledge) : List Frame → ScopeId → Prop where
  | top {f} : g.Shows K 0 f → Stands K [f] 0
  | inner {f frames scope outer} : K (.within scope outer) → Stands K frames outer →
      g.Shows K scope f → Stands K (f :: frames) scope

variable {g} {K K₁ : Knowledge} {scope outer : ScopeId} {f : Frame} {frames : List Frame}
  {region : Region} {t : Token}

theorem le_opened : K ≤ g.opened K scope outer region := fun _ => Or.inl

theorem le_declared : K ≤ g.declared K scope t := fun _ => Or.inl

theorem Shows.mono (h : g.Shows K scope f) (hK : K ≤ K₁) : g.Shows K₁ scope f :=
  ⟨fun ho => hK _ (h.apart ho), fun ho => hK _ (h.owned ho), fun ho hn => hK _ (h.held ho hn)⟩

theorem Stands.mono (h : g.Stands K frames scope) (hK : K ≤ K₁) : g.Stands K₁ frames scope := by
  induction h with
  | top hf => exact .top (hf.mono hK)
  | inner hp _ hf ih => exact .inner (hK _ hp) ih (hf.mono hK)

theorem Stands.shows (h : g.Stands K (f :: frames) scope) : g.Shows K scope f := by
  cases h with
  | top hf => exact hf
  | inner _ _ hf => exact hf

theorem Stands.exists_cons (h : g.Stands K frames scope) : ∃ f rest, frames = f :: rest := by
  cases h with
  | top _ => exact ⟨_, _, rfl⟩
  | inner _ _ _ => exact ⟨_, _, rfl⟩

theorem Stands.last (h : g.Stands K frames scope) :
    ∃ f, frames.getLast? = some f ∧ g.Shows K 0 f := by
  induction h with
  | top hf => exact ⟨_, rfl, hf⟩
  | inner _ hs _ ih =>
    obtain ⟨f, hlast, hf⟩ := ih
    obtain ⟨_, rest, rfl⟩ := hs.exists_cons
    exact ⟨f, List.getLast?_cons_cons.trans hlast, hf⟩

theorem Shows.knows (h : g.Shows K scope f) : K.Knows scope := by
  cases ho : g.owns f.region with
  | false => exact ⟨_, h.apart ho, rfl⟩
  | true => exact ⟨_, h.owned ho, rfl⟩

theorem Stands.knows (h : g.Stands K frames scope) : K.Knows scope := by
  cases h with
  | top hf => exact hf.knows
  | inner _ _ hf => exact hf.knows

theorem shows_opened : g.Shows (g.opened K scope outer region) scope ⟨region, []⟩ := by
  refine ⟨fun ho => .inr (.inr ?_), fun ho => .inr (.inr ?_), nofun⟩
  · rw [show g.owns region = false from ho]
    rfl
  · rw [show g.owns region = true from ho]
    rfl

theorem Shows.rename {names names' : List String} (h : g.Shows K scope ⟨region, names⟩)
    (hn : g.respelling.old ∈ names' → g.respelling.old ∈ names) :
    g.Shows K scope ⟨region, names'⟩ :=
  ⟨h.apart, h.owned, fun ho hmem => h.held ho (hn hmem)⟩

theorem Stands.reframe (h : g.Stands K (f :: frames) scope) {f' : Frame} (hf : g.Shows K scope f') :
    g.Stands K (f' :: frames) scope := by
  cases h with
  | top _ => exact .top hf
  | inner hp hs _ => exact .inner hp hs hf

/-! ### Declarations -/

/-- A token that is declared in a scope tells the symbol from all other ones. -/
structure Declares (g : Renamed) (K : Knowledge) (scope : ScopeId) (t : Token) : Prop where
  fits : g.respelling.Fits t
  owned : g.respelling.picks t = true → K (.owned scope)
  apart : g.respelling.picks t = false → t.lexeme = g.respelling.old → K (.apart scope)

theorem Shows.declares (h : g.Shows K scope f) (hr : f.region.Agrees g.respelling g.program)
    (ht : t ∈ f.region.declarations g.program) : g.Declares K scope t where
  fits := (hr t ht).1
  owned hp := h.owned (List.any_eq_true.mpr ⟨t, ht, hp⟩)
  apart hp hold := h.apart (Bool.eq_false_iff.mpr fun ho => (hr t ht).2 hp ho hold)

theorem Shows.declared (h : g.Shows K scope f) (hr : f.region.Agrees g.respelling g.program)
    (ht : t ∈ f.region.declarations g.program) :
    g.Shows (g.declared K scope t) scope { f with names := t.lexeme :: f.names } := by
  refine ⟨fun ho => .inl (h.apart ho), fun ho => .inl (h.owned ho), fun ho hmem => ?_⟩
  rcases List.mem_cons.mp hmem with hold | hmem
  · cases hp : g.respelling.picks t with
    | true => exact .inr ⟨hp, rfl⟩
    | false => exact absurd hold.symm ((hr t ht).2 hp ho)
  · exact .inl (h.held ho hmem)

end Renamed

/-! ## Corresponding values -/

section Values

variable (g : Renamed) (K : Knowledge)

/-- The same function of the program, in the same scope. In the other text it may have another name. -/
inductive Closure.Respells : Closure → Closure → Prop where
  | mk {kind} {p : Site} {f name scope isInitializer} : g.Stands K p.frames scope →
      f.sites kind p ⊆ programSites g.program →
      Closure.Respells ⟨f, scope, isInitializer⟩ ⟨f.respell g.respelling name, scope, isInitializer⟩

/-- The same method; a call opens a scope for `this` first. -/
inductive Closure.RespellsMethod : Closure → Closure → Prop where
  | mk {kind} {p : Site} {c f name scope isInitializer} : g.Stands K p.frames scope →
      f.sites kind (p.enter (.this c) [Keyword.this.spelling]) ⊆ programSites g.program →
      Closure.RespellsMethod ⟨f, scope, isInitializer⟩
        ⟨f.respell g.respelling name, scope, isInitializer⟩

/-- Classes with the same number and corresponding methods. -/
inductive ClassObject.Respells : ClassObject → ClassObject → Prop where
  | base {id name name' methods methods'} :
      Bindings.Rel (Closure.RespellsMethod g K) methods methods' →
      ClassObject.Respells ⟨id, name, none, methods⟩ ⟨id, name', none, methods'⟩
  | derived {id name name' parent parent' methods methods'} : ClassObject.Respells parent parent' →
      Bindings.Rel (Closure.RespellsMethod g K) methods methods' →
      ClassObject.Respells ⟨id, name, some parent, methods⟩ ⟨id, name', some parent', methods'⟩

/-- The same constant, or objects with the same number and corresponding contents. -/
inductive Value.Respells : Value → Value → Prop where
  | nil : Value.Respells .nil .nil
  | boolean (b) : Value.Respells (.boolean b) (.boolean b)
  | number (x) : Value.Respells (.number x) (.number x)
  | string (s) : Value.Respells (.string s) (.string s)
  | function (id) {c c'} : Closure.Respells g K c c' →
      Value.Respells (.function id c) (.function id c')
  | native (f) : Value.Respells (.native f) (.native f)
  | class {c c'} : ClassObject.Respells g K c c' → Value.Respells (.class c) (.class c')
  | instance (id) {c c'} : ClassObject.Respells g K c c' →
      Value.Respells (.instance id c) (.instance id c')

/-- Statements that ended alike. -/
inductive Completion.Respells : Completion → Completion → Prop where
  | normal : Completion.Respells .normal .normal
  | return {v v'} : Value.Respells g K v v' → Completion.Respells (.return v) (.return v')
  | break : Completion.Respells .break .break
  | continue : Completion.Respells .continue .continue

end Values

section Values

variable {g : Renamed} {K K₁ : Knowledge}

/-! ### More knowledge -/

theorem Closure.Respells.mono {c c' : Closure} (h : Closure.Respells g K c c') (hK : K ≤ K₁) :
    Closure.Respells g K₁ c c' := by
  obtain ⟨hs, hsites⟩ := h
  exact .mk (hs.mono hK) hsites

theorem Closure.RespellsMethod.mono {c c' : Closure} (h : Closure.RespellsMethod g K c c')
    (hK : K ≤ K₁) : Closure.RespellsMethod g K₁ c c' := by
  obtain ⟨hs, hsites⟩ := h
  exact .mk (hs.mono hK) hsites

theorem ClassObject.Respells.mono {c c' : ClassObject} (h : ClassObject.Respells g K c c')
    (hK : K ≤ K₁) : ClassObject.Respells g K₁ c c' := by
  induction h with
  | base hm => exact .base (hm.mono fun _ _ h => h.mono hK)
  | derived _ hm ih => exact .derived ih (hm.mono fun _ _ h => h.mono hK)

theorem Value.Respells.mono {v v' : Value} (h : Value.Respells g K v v') (hK : K ≤ K₁) :
    Value.Respells g K₁ v v' := by
  cases h with
  | function id hc => exact .function id (hc.mono hK)
  | «class» hc => exact .class (hc.mono hK)
  | «instance» id hc => exact .instance id (hc.mono hK)
  | nil => exact .nil
  | boolean b => exact .boolean b
  | number x => exact .number x
  | string s => exact .string s
  | native f => exact .native f

/-! ### What corresponding values have in common -/

theorem Closure.Respells.arity {c c' : Closure} (h : Closure.Respells g K c c') :
    c'.arity = c.arity := by
  obtain ⟨-, -⟩ := h
  simp [Closure.arity]

theorem Closure.RespellsMethod.arity {c c' : Closure} (h : Closure.RespellsMethod g K c c') :
    c'.arity = c.arity := by
  obtain ⟨-, -⟩ := h
  simp [Closure.arity]

theorem ClassObject.Respells.method? {c c' : ClassObject} (h : ClassObject.Respells g K c c')
    (name : String) :
    Option.Rel (Closure.RespellsMethod g K) (c.method? name) (c'.method? name) := by
  induction h with
  | @base id n n' methods methods' hm =>
    have hn := hm name
    rw [ClassObject.method?, ClassObject.method?]
    generalize methods.get? name = own, methods'.get? name = own' at hn
    cases hn with
    | none => exact .none
    | some h => exact .some h
  | @derived id n n' parent parent' methods methods' _ hm ih =>
    have hn := hm name
    rw [ClassObject.method?, ClassObject.method?]
    generalize methods.get? name = own, methods'.get? name = own' at hn
    cases hn with
    | none => exact ih
    | some h => exact .some h

theorem ClassObject.Respells.arity {c c' : ClassObject} (h : ClassObject.Respells g K c c') :
    c'.arity = c.arity := by
  have hinit := h.method? initializerName
  unfold ClassObject.arity ClassObject.initializer?
  generalize c.method? initializerName = own, c'.method? initializerName = own' at hinit
  cases hinit with
  | none => rfl
  | some h => exact h.arity

theorem ClassObject.Respells.id {c c' : ClassObject} (h : ClassObject.Respells g K c c') :
    c'.id = c.id := by
  cases h <;> rfl

variable {v v' w w' : Value}

theorem Value.Respells.truthy (h : Value.Respells g K v v') : v'.truthy = v.truthy := by
  cases h <;> rfl

theorem Value.Respells.equals (h : Value.Respells g K v v') (hw : Value.Respells g K w w') :
    v'.equals w' = v.equals w := by
  cases h with
  | «class» hc =>
    cases hw with
    | «class» hc' => simp only [Value.equals, hc.id, hc'.id]
    | _ => rfl
  | _ => cases hw <;> rfl

theorem Value.Plain.respells (h : v.Plain) : Value.Respells g K v v := by
  cases v with
  | nil => exact .nil
  | boolean b => exact .boolean b
  | number x => exact .number x
  | string s => exact .string s
  | native f => exact .native f
  | _ => exact h.elim

/-! ### Operators -/

theorem UnaryOp.apply_respells (op : UnaryOp) (h : Value.Respells g K v v') :
    op.apply v' = op.apply v := by
  cases op with
  | negate => cases h <;> rfl
  | not => exact congrArg (fun b => Except.ok (Value.boolean !b)) h.truthy

theorem BinaryOp.onNumbers_respells (op : BinaryOp) (h : Value.Respells g K v v')
    (hw : Value.Respells g K w w') : op.onNumbers v' w' = op.onNumbers v w := by
  cases h with
  | number x => cases hw <;> rfl
  | _ => rfl

/-- **Operators on corresponding values** have the same value or the same problem. -/
theorem BinaryOp.apply_respells (op : BinaryOp) (h : Value.Respells g K v v')
    (hw : Value.Respells g K w w') : op.apply v' w' = op.apply v w := by
  cases op with
  | equal => exact congrArg (fun b => Except.ok (Value.boolean b)) (h.equals hw)
  | notEqual => exact congrArg (fun b => Except.ok (Value.boolean !b)) (h.equals hw)
  | add => cases h <;> cases hw <;> rfl
  | _ => exact onNumbers_respells _ h hw

theorem LogicalOp.decidedBy_respells (op : LogicalOp) (h : Value.Respells g K v v') :
    op.decidedBy v' = op.decidedBy v := by
  cases op <;> simp only [decidedBy, h.truthy]

theorem Literal.plain_value (constant : Literal) : constant.value.Plain := by
  cases constant <;> trivial

theorem methodTable_respells {p : Site} {scope : ScopeId} {c : Class}
    (hs : g.Stands K p.frames scope) {fs : List Function}
    (hsites : ∀ f ∈ fs, f.sites f.methodKind (p.enter (.this c) [Keyword.this.spelling]) ⊆
      programSites g.program) :
    Bindings.Rel (Closure.RespellsMethod g K) (Eval.methodTable scope fs)
      (Eval.methodTable scope (fs.map (Function.respellMethod g.respelling))) := by
  have hrows {table table' : Bindings Closure}
      (htable : Bindings.Rel (Closure.RespellsMethod g K) table table') :
      Bindings.Rel (Closure.RespellsMethod g K)
        (fs.foldl (fun table f => table.insert f.name.lexeme ⟨f, scope, f.isInitializer⟩) table)
        ((fs.map (Function.respellMethod g.respelling)).foldl
          (fun table f => table.insert f.name.lexeme ⟨f, scope, f.isInitializer⟩) table') := by
    induction fs generalizing table table' with
    | nil => exact htable
    | cons f rest ih =>
      obtain ⟨hf, hrest⟩ := List.forall_mem_cons.mp hsites
      rw [List.map_cons, List.foldl_cons, List.foldl_cons, Function.isInitializer_respellMethod,
        Function.respellMethod, Function.name_respell, Token.lexeme_relocate]
      exact ih hrest (htable.insert (.mk hs hf) _)
  exact hrows fun _ => .none

end Values

/-! ## Names that mean the same -/

namespace Renamed

/-- Two names that mean the same in a scope of the two runs. -/
inductive Bound (g : Renamed) (K : Knowledge) : ScopeId → String → String → Prop where
  | other {scope name} : name ≠ g.respelling.old → name ≠ g.respelling.new → Bound g K scope name name
  | apart {scope} : K (.apart scope) → Bound g K scope g.respelling.old g.respelling.old
  | held {scope} : K (.held scope) → Bound g K scope g.respelling.old g.respelling.new

/-- What the scopes of the two runs have in common. -/
structure Links (g : Renamed) (K : Knowledge) (s s' : Scopes Value) : Prop where
  size : s'.size = s.size
  parent : ∀ scope, s'.parent? scope = s.parent? scope
  lt_size : ∀ fact, K fact → fact.scope < s.size
  within : ∀ {scope outer}, K (.within scope outer) → s.parent? scope = some outer
  consistent : K.Consistent
  own : ∀ {scope name name'}, g.Bound K scope name name' →
    Option.Rel (Value.Respells g K) (s.own? scope name) (s'.own? scope name')

variable {g : Renamed} {K K₁ : Knowledge} {s s' : Scopes Value} {scope outer : ScopeId}
  {name name' : String} {f : Frame} {frames : List Frame} {region : Region} {t : Token}

theorem Bound.mono (h : g.Bound K scope name name') (hK : K ≤ K₁) : g.Bound K₁ scope name name' := by
  cases h with
  | other h h' => exact .other h h'
  | apart h => exact .apart (hK _ h)
  | held h => exact .held (hK _ h)

theorem bound_word (k : Keyword) : g.Bound K scope k.spelling k.spelling :=
  .other (g.words k).1.symm (g.words k).2.symm

theorem Declares.bound (h : g.Declares K scope t) :
    g.Bound (g.declared K scope t) scope t.lexeme (t.respelled g.respelling) := by
  cases hp : g.respelling.picks t with
  | true =>
    rw [Token.respelled_of_picks hp, h.fits.old hp]
    exact .held (.inr ⟨hp, rfl⟩)
  | false =>
    rw [Token.respelled_of_not_picks hp]
    by_cases hold : t.lexeme = g.respelling.old
    · rw [hold]
      exact .apart (.inl (h.apart hp hold))
    · exact .other hold (h.fits.new hp)

/-- No two names mean the same as one. -/
theorem Bound.unique (hK : K.Consistent) {n n' : String} (hb : g.Bound K scope name name')
    (hb' : g.Bound K scope n n') : name = n ↔ name' = n' := by
  have hapart (ha : K (.apart scope)) (hh : K (.held scope)) : False :=
    hK.disjoint (hK.owned hh) ha
  cases hb with
  | other hold hnew =>
    cases hb' with
    | other _ _ => rfl
    | apart _ => rfl
    | held _ => exact iff_of_false hold hnew
  | apart ha =>
    cases hb' with
    | other _ _ => rfl
    | apart _ => rfl
    | held hh => exact (hapart ha hh).elim
  | held hh =>
    cases hb' with
    | other hold hnew => exact iff_of_false hold.symm hnew.symm
    | apart ha => exact (hapart ha hh).elim
    | held _ => exact iff_of_true rfl rfl

theorem of_opened {fact : ScopeFact} (h : g.opened K scope outer region fact)
    (hother : fact.scope ≠ scope) : K fact := by
  rcases h with hfact | rfl | rfl
  · exact hfact
  · exact absurd rfl hother
  · split at hother <;> exact absurd rfl hother

theorem Bound.of_opened {i : ScopeId} (hb : g.Bound (g.opened K scope outer region) i name name')
    (hother : i ≠ scope) : g.Bound K i name name' := by
  cases hb with
  | other hold hnew => exact .other hold hnew
  | apart ha => exact .apart (Renamed.of_opened ha hother)
  | held hh => exact .held (Renamed.of_opened hh hother)

/-- A new scope either declares the symbol or does not, and nothing is bound in it. -/
theorem consistent_opened (hK : K.Consistent)
    (hnew : ∀ fact, K fact → fact.scope ≠ scope) : (g.opened K scope outer region).Consistent where
  disjoint := by
    intro i ho ha
    by_cases hi : i = scope
    · subst hi
      rcases ho with ho | ho | ho
      · exact hnew _ ho rfl
      · cases ho
      · rcases ha with ha | ha | ha
        · exact hnew _ ha rfl
        · cases ha
        · cases ho.trans ha.symm
    · exact hK.disjoint (of_opened ho hi) (of_opened ha hi)
  owned := by
    rintro i (hh | hh | hh)
    · exact .inl (hK.owned hh)
    · cases hh
    · split at hh <;> cases hh

namespace Links

theorem ancestor (h : g.Links K s s') (scope : ScopeId) (distance : Nat) :
    s'.ancestor scope distance = s.ancestor scope distance := by
  induction distance generalizing scope with
  | zero => rfl
  | succ distance ih => simp only [Scopes.ancestor, h.parent, ih]

theorem getAt (h : g.Links K s s') (scope : ScopeId) (distance : Nat) (k : Keyword) :
    Option.Rel (Value.Respells g K) (s.getAt scope distance k.spelling)
      (s'.getAt scope distance k.spelling) := by
  rw [Scopes.getAt, Scopes.getAt, h.ancestor]
  cases s.ancestor scope distance with
  | none => exact .none
  | some a => exact h.own (bound_word k)

/-- Names that mean the same are bound in the same scopes. -/
theorem isSome_own? (h : g.Links K s s') (hb : g.Bound K scope name name') :
    (s'.own? scope name').isSome = (s.own? scope name).isSome := by
  have hown := h.own hb
  generalize s.own? scope name = v, s'.own? scope name' = v' at hown
  cases hown <;> rfl

theorem lt_of_knows (h : g.Links K s s') (hscope : K.Knows scope) : scope < s.size := by
  obtain ⟨fact, hfact, rfl⟩ := hscope
  exact h.lt_size fact hfact

end Links

theorem Stands.shows_of_ancestor (hs : g.Stands K frames scope) (h : g.Links K s s')
    {distance : Nat} {a : ScopeId} (ha : s.ancestor scope distance = some a) :
    ∃ f, frames[distance]? = some f ∧ g.Shows K a f := by
  induction hs generalizing distance with
  | top hf =>
    cases distance with
    | zero =>
      cases ha
      exact ⟨_, rfl, hf⟩
    | succ distance =>
      rw [Scopes.ancestor, Scopes.parent?_zero] at ha
      cases ha
  | inner hp _ hf ih =>
    cases distance with
    | zero =>
      cases ha
      exact ⟨_, rfl, hf⟩
    | succ distance =>
      rw [s.ancestor_succ (h.within hp)] at ha
      exact ih ha

/-- The spellings of a use mean the same where it is looked up, if the symbol is found where it is bound
and other names are not. -/
theorem Shows.bound (h : g.Shows K scope f) (hfit : g.respelling.Fits t)
    (hpicked : g.respelling.picks t = true → g.owns f.region = true ∧ g.respelling.old ∈ f.names)
    (hother : g.respelling.picks t = false → t.lexeme = g.respelling.old →
      g.owns f.region = false) :
    g.Bound K scope t.lexeme (t.respelled g.respelling) := by
  cases hp : g.respelling.picks t with
  | true =>
    obtain ⟨howns, hold⟩ := hpicked hp
    rw [Token.respelled_of_picks hp, hfit.old hp]
    exact .held (h.held howns hold)
  | false =>
    rw [Token.respelled_of_not_picks hp]
    by_cases hold : t.lexeme = g.respelling.old
    · rw [hold]
      exact .apart (h.apart (hother hp hold))
    · exact .other hold (hfit.new hp)

section

variable {p : Site} {use : Occurrence} (hs : g.Stands K p.frames scope)
  (hf : p.Finds g.respelling g.program g.distances use)

include hs hf

/-- **The spellings of a use mean the same** in the scope at its distance. -/
theorem Stands.bound_of_ancestor (h : g.Links K s s') {distance : Nat} {a : ScopeId}
    (hd : g.distances[use.id]? = some distance) (ha : s.ancestor scope distance = some a) :
    K.Knows a ∧ g.Bound K a use.name.lexeme (use.name.respelled g.respelling) := by
  obtain ⟨f, hget, hshows⟩ := hs.shows_of_ancestor h ha
  refine ⟨hshows.knows, hshows.bound hf.fits (fun hp => ?_) fun hp hold => ?_⟩
  · obtain ⟨d, f', hd', hget', howns, hold⟩ := hf.picked hp
    obtain rfl := Option.some.inj (hd.symm.trans hd')
    obtain rfl := Option.some.inj (hget.symm.trans hget')
    exact ⟨howns, hold⟩
  · refine hf.other hp hold f.region ?_
    rw [hd, Site.reached?, Site.regions, List.getElem?_map, hget]
    rfl

/-- So do those of a use without a distance, among the globals. -/
theorem Stands.bound_globals (hd : g.distances[use.id]? = none) :
    K.Knows 0 ∧ g.Bound K 0 use.name.lexeme (use.name.respelled g.respelling) := by
  obtain ⟨f, hlast, hshows⟩ := hs.last
  refine ⟨hshows.knows, hshows.bound hf.fits (fun hp => ?_) fun hp hold => ?_⟩
  · obtain ⟨d, _, hd', -⟩ := hf.picked hp
    cases hd.symm.trans hd'
  · refine hf.other hp hold f.region ?_
    rw [hd, Site.reached?, Site.regions, List.getLast?_map, hlast]
    rfl

end

namespace Links

/-! ### Steps -/

theorem opened (h : g.Links K s s') (houter : outer < s.size) (region : Region) :
    g.Links (g.opened K s.size outer region) (s.push (some outer)).2 (s'.push (some outer)).2 where
  size := by rw [Scopes.size_push, Scopes.size_push, h.size]
  parent scope := by
    have houter' : outer < s'.size := h.size ▸ houter
    rcases Nat.lt_trichotomy scope s.size with hlt | rfl | hgt
    · rw [Scopes.parent?_push _ _ hlt, Scopes.parent?_push _ _ (h.size ▸ hlt), h.parent]
    · rw [Scopes.parent?_push_size _ houter, ← h.size, Scopes.parent?_push_size _ houter']
    · have hnone {u : Scopes Value} (hu : u.size = s.size) :
          (u.push (some outer)).2.parent? scope = none := by
        cases hp : (u.push (some outer)).2.parent? scope with
        | none => rfl
        | some _ =>
          have hlt := Scopes.lt_size_of_parent? _ hp
          rw [Scopes.size_push, hu] at hlt
          exact absurd (Nat.lt_succ_iff.mp hlt) (Nat.not_le.mpr hgt)
      rw [hnone rfl, hnone h.size]
  lt_size := by
    rw [Scopes.size_push]
    rintro fact (hfact | rfl | rfl)
    · exact Nat.lt_succ_of_lt (h.lt_size fact hfact)
    · exact Nat.lt_succ_self _
    · split <;> exact Nat.lt_succ_self _
  within := by
    rintro i o (hfact | hfact | hfact)
    · have hi : i < s.size := h.lt_size _ hfact
      rw [Scopes.parent?_push _ _ hi, h.within hfact]
    · cases hfact
      exact Scopes.parent?_push_size _ houter
    · split at hfact <;> cases hfact
  consistent := consistent_opened h.consistent fun fact hfact => Nat.ne_of_lt (h.lt_size fact hfact)
  own := by
    intro i name name' hb
    rw [Scopes.own?_push, Scopes.own?_push]
    rcases Nat.lt_or_ge i s.size with hlt | hge
    · exact rel_mono (h.own (hb.of_opened (Nat.ne_of_lt hlt))) fun _ _ hv => hv.mono le_opened
    · rw [s.own?_eq_none hge, s'.own?_eq_none (h.size ▸ hge)]
      exact .none

/-- **Corresponding values are bound to names that mean the same**, which they may not have done
before: the symbol is bound for the first time. -/
theorem bind (h : g.Links K s s') (hK : K ≤ K₁) (hcons : K₁.Consistent)
    (hnew : ∀ fact, K₁ fact → K fact ∨ fact = .held scope ∧ K (.owned scope) ∧
      name = g.respelling.old)
    (hscope : scope < s.size) (hb : g.Bound K₁ scope name name') {v v' : Value}
    (hv : Value.Respells g K₁ v v') :
    g.Links K₁ (s.define scope name v) (s'.define scope name' v') where
  size := by rw [Scopes.size_define, Scopes.size_define, h.size]
  parent i := by rw [Scopes.parent?_define, Scopes.parent?_define, h.parent]
  lt_size fact hfact := by
    rw [Scopes.size_define]
    obtain hfact | ⟨rfl, -⟩ := hnew fact hfact
    · exact h.lt_size fact hfact
    · exact hscope
  within hfact := by
    rw [Scopes.parent?_define]
    obtain hfact | ⟨he, -⟩ := hnew _ hfact
    · exact h.within hfact
    · cases he
  consistent := hcons
  own := by
    intro i n n' hb'
    rw [Scopes.own?_define _ hscope, Scopes.own?_define _ (h.size ▸ hscope)]
    by_cases hsame : scope = i ∧ name = n
    · obtain ⟨rfl, hname⟩ := hsame
      rw [if_pos ⟨rfl, hname⟩, if_pos ⟨rfl, (hb.unique hcons hb').mp hname⟩]
      exact .some hv
    · have hsame' : ¬ (scope = i ∧ name' = n') := by
        rintro ⟨rfl, hname⟩
        exact hsame ⟨rfl, (hb.unique hcons hb').mpr hname⟩
      rw [if_neg hsame, if_neg hsame']
      have hb' : g.Bound K i n n' := by
        cases hb' with
        | other hold hnew => exact .other hold hnew
        | apart ha =>
          obtain ha | ⟨he, -⟩ := hnew _ ha
          · exact .apart ha
          · cases he
        | held hh =>
          obtain hh | ⟨he, -, hold⟩ := hnew _ hh
          · exact .held hh
          · cases he
            exact absurd ⟨rfl, hold⟩ hsame
      exact rel_mono (h.own hb') fun _ _ hv => hv.mono hK

theorem defined (h : g.Links K s s') (hscope : scope < s.size) (hb : g.Bound K scope name name')
    {v v' : Value} (hv : Value.Respells g K v v') :
    g.Links K (s.define scope name v) (s'.define scope name' v') :=
  h.bind (le_refl K) h.consistent (fun _ => Or.inl) hscope hb hv

/-- **A declaration binds its name**: the symbol in each run under its own name. -/
theorem declared (h : g.Links K s s') (hscope : scope < s.size) (ht : g.Declares K scope t)
    {v v' : Value} (hv : Value.Respells g (g.declared K scope t) v v') :
    g.Links (g.declared K scope t) (s.define scope t.lexeme v)
      (s'.define scope (t.respelled g.respelling) v') := by
  refine h.bind le_declared ⟨?_, ?_⟩ ?_ hscope ht.bound hv
  · rintro i (ho | ⟨-, ho⟩) (ha | ⟨-, ha⟩)
    · exact h.consistent.disjoint ho ha
    · cases ha
    · cases ho
    · cases ho
  · rintro i (hh | ⟨hp, hh⟩)
    · exact .inl (h.consistent.owned hh)
    · cases hh
      exact .inl (ht.owned hp)
  · rintro fact (hfact | ⟨hp, rfl⟩)
    · exact .inl hfact
    · exact .inr ⟨rfl, ht.owned hp, ht.fits.old hp⟩

end Links

/-! ## Machines -/

/-- Two machines that stand in the same scope and have corresponding contents. As many lines were
printed. -/
structure Joins (g : Renamed) (K : Knowledge) (scope : ScopeId) (m m' : Machine) : Prop where
  links : g.Links K m.scopes m'.scopes
  size : m'.fields.size = m.fields.size
  fields : ∀ id : InstanceId,
    Option.Rel (Bindings.Rel (Value.Respells g K)) m.fields[id]? m'.fields[id]?
  current : m.current = scope
  current' : m'.current = scope
  globals : m.globals = 0
  globals' : m'.globals = 0
  distances : m.distances = g.distances
  distances' : m'.distances = g.distances'
  nextObject : m'.nextObject = m.nextObject
  printed : m'.printed.size = m.printed.size
  printer : m'.printer = m.printer
  writes : m'.writes = m.writes
  clock : m'.clock = m.clock
  readings : m'.readings = m.readings

namespace Joins

variable {m m' : Machine} {i : ScopeId}

theorem move (h : g.Joins K i m m') (scope : ScopeId) :
    g.Joins K scope { m with current := scope } { m' with current := scope } :=
  { h with current := rfl, current' := rfl }

theorem rescoped (h : g.Joins K i m m') (hK : K ≤ K₁) {s s' : Scopes Value}
    (hs : g.Links K₁ s s') : g.Joins K₁ i { m with scopes := s } { m' with scopes := s' } :=
  { h with
    links := hs
    fields := fun id => rel_mono (h.fields id) fun _ _ hb => hb.mono fun _ _ hv => hv.mono hK }

theorem instantiated (h : g.Joins K i m m') : g.Joins K i m.instantiated m'.instantiated :=
  { h with
    size := by
      show (m'.fields.push _).size = (m.fields.push _).size
      rw [Array.size_push, Array.size_push, h.size]
    fields := fun id => by
      show Option.Rel _ (m.fields.push .empty)[id]? (m'.fields.push .empty)[id]?
      rw [Array.getElem?_push, Array.getElem?_push, h.size]
      split
      · exact .some fun _ => .none
      · exact h.fields id }

theorem written (h : g.Joins K i m m') (id : InstanceId) (name : String) {v v' : Value}
    (hv : Value.Respells g K v v') :
    g.Joins K i { m with fields := m.fields.modify id (·.insert name v) }
      { m' with fields := m'.fields.modify id (·.insert name v') } :=
  { h with
    size := by rw [Array.size_modify, Array.size_modify, h.size]
    fields := fun id' => by
      rw [Array.getElem?_modify, Array.getElem?_modify]
      split
      · exact rel_map (h.fields id') fun _ _ hb => hb.insert hv name
      · exact h.fields id' }

theorem field (h : g.Joins K i m m') (id : InstanceId) (name : String) :
    Option.Rel (Value.Respells g K) (m.fields[id]?.bind (·.get? name))
      (m'.fields[id]?.bind (·.get? name)) := by
  have hfields := h.fields id
  generalize m.fields[id]? = b, m'.fields[id]? = b' at hfields
  cases hfields with
  | none => exact .none
  | some hb => exact hb name

end Joins

end Renamed

end Lox
