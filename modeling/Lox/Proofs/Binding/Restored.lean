import Lox.Proofs.Binding.Coherent
import Lox.Proofs.Binding.Grow

/-!
# What a part of a program leaves behind in the resolver

A part of a program is walked over inside the place where it stands: behind it the same scopes, the
same function, class and loops are open. What was found before it is kept.

* `Stmt.exposed`: the declarations that a statement makes in the scope around it;
* `Context.Returns`: the innermost scope gained certain declarations, and the place is the same;
  `Function.alike_resolve`, `Stmt.returns_resolve`: this holds behind every part;
* `Context.Restored`: the same, said of the single names of the innermost scope;
* `Context.Extended`: distances, definitions and references were added, `Steps.extended` and, where a
  scope is open, `Introduces.extended`;
* **`context_restored`**: the walk over a statement, an expression or a function from any context
  restores this context and extends what is known.
-/

namespace Lox

/-! ## Declarations in the scope around -/

mutual

/-- The names that a statement declares in the scope around it, in the order of the text. -/
def Stmt.exposed : Stmt → List Token
  | .var name _ => [name]
  | .function declaration => [declaration.name]
  | .class declaration => [declaration.name]
  | .ifElse _ thenBranch elseBranch => thenBranch.exposed ++ Stmt.exposedOption elseBranch
  | .whileLoop _ body => body.exposed
  | .expression _ | .print _ | .block _ | .forLoop .. | .return .. | .break _ | .continue _ => []

/-- The names that a statement that may be missing declares in the scope around it. -/
def Stmt.exposedOption : Option Stmt → List Token
  | none => []
  | some s => s.exposed

end

/-- The names that several statements declare in the scope around them. -/
def Stmt.exposedAll : List Stmt → List Token
  | [] => []
  | s :: rest => s.exposed ++ Stmt.exposedAll rest

namespace Bindings

variable {α : Type}

theorem put_put (name : String) (old value : α) (entries : List (String × α)) :
    put name value (put name old entries) = put name value entries := by
  induction entries with
  | nil => simp [put]
  | cons entry rest ih =>
    obtain ⟨key, bound⟩ := entry
    by_cases hk : key = name
    · simp [put, hk]
    · simp [put, hk, ih]

theorem insert_insert (b : Bindings α) (name : String) (old value : α) :
    (b.insert name old).insert name value = b.insert name value :=
  congrArg Bindings.mk (put_put name old value b.entries)

end Bindings

namespace ScopeNames

/-- A scope in which one name after the other was declared. -/
def declareAll (ts : List Token) (scope : ScopeNames) : ScopeNames :=
  ts.foldl (fun scope t => scope.insert t.lexeme (.declared t.id)) scope

variable {ts back : List Token} {scope : ScopeNames}

theorem declareAll_append (us : List Token) :
    declareAll us (declareAll ts scope) = declareAll (ts ++ us) scope :=
  List.foldl_append.symm

theorem get?_declareAll_of_not_mem {name : String} (h : ∀ t ∈ ts, t.lexeme ≠ name) :
    (declareAll ts scope).get? name = scope.get? name := by
  induction ts generalizing scope with
  | nil => rfl
  | cons t rest ih =>
    rw [declareAll, List.foldl_cons]
    refine (ih fun u hu => h u (List.mem_cons_of_mem t hu)).trans ?_
    rw [Bindings.get?_insert, if_neg (h t List.mem_cons_self)]

/-- A name is bound to the last of its declarations. -/
theorem get?_declareAll {t : Token} (h : ∀ u ∈ back, u.lexeme ≠ t.lexeme) :
    (declareAll (ts ++ t :: back) scope).get? t.lexeme = some (.declared t.id) := by
  rw [← declareAll_append, declareAll, List.foldl_cons]
  refine (get?_declareAll_of_not_mem h).trans ?_
  rw [Bindings.get?_insert, if_pos rfl]

end ScopeNames

namespace Context

/-! ## The place of a part -/

/-- The innermost scope has gained declarations; all around it is the same. -/
structure Returns (ts : List Token) (c c' : Context) : Prop where
  scopes : c'.scopes = c.scopes.modifyHead (ScopeNames.declareAll ts)
  function : c'.function = c.function
  classKind : c'.classKind = c.classKind
  loopDepth : c'.loopDepth = c.loopDepth

variable {c c₁ c₂ : Context} {ts us : List Token}

theorem Alike.returns (h : Alike c c₁) : Returns [] c c₁ :=
  ⟨h.scopes.trans (congrFun List.modifyHead_id c.scopes).symm, h.function, h.classKind, h.loopDepth⟩

namespace Returns

theorem append (h₁ : Returns ts c c₁) (h₂ : Returns us c₁ c₂) : Returns (ts ++ us) c c₂ where
  scopes := by
    rw [h₂.scopes, h₁.scopes, List.modifyHead_modifyHead]
    congr 1
    funext scope
    exact ScopeNames.declareAll_append us
  function := h₂.function.trans h₁.function
  classKind := h₂.classKind.trans h₁.classKind
  loopDepth := h₂.loopDepth.trans h₁.loopDepth

theorem before (h₁ : Alike c c₁) (h₂ : Returns ts c₁ c₂) : Returns ts c c₂ := h₁.returns.append h₂

theorem behind (h₁ : Returns ts c c₁) (h₂ : Alike c₁ c₂) : Returns ts c c₂ := by
  have h := h₁.append h₂.returns
  rwa [List.append_nil] at h

theorem block (h : Returns ts c.openScope c₁) : Alike c c₁.closeScope :=
  ⟨congrArg List.tail h.scopes, h.function, h.classKind, h.loopDepth⟩

theorem loop (h : Returns ts c.enterLoop c₁) : Returns ts c c₁.leaveLoop :=
  ⟨h.scopes, h.function, h.classKind, by
    show c₁.loopDepth - 1 = c.loopDepth
    rw [h.loopDepth, enterLoop, Nat.add_sub_cancel]⟩

theorem call {kind : FunctionKind} (h : Returns ts (c.enterFunction kind) c₁) :
    Alike c (c₁.leaveFunction c) :=
  ⟨congrArg List.tail h.scopes, rfl, h.classKind, rfl⟩

end Returns

/-! ## Declarations -/

theorem bind_scopes (name : String) (binding : Binding) :
    (c.bind name binding).scopes = c.scopes.modifyHead (·.insert name binding) := by
  unfold bind
  split
  · next h => rw [h, List.modifyHead_nil]
  · next h => rw [h, List.modifyHead_cons]

theorem Returns.define (name : Token) (kind : SymbolKind) (h : Alike (c.declare name) c₁) :
    Returns [name] c (c₁.define name kind) where
  scopes := by
    rw [define_eq_bind]
    show (c₁.bind name.lexeme (.declared name.id)).scopes = _
    rw [bind_scopes, h.scopes, declare, bind_scopes, (alike_check _ _ _).scopes,
      List.modifyHead_modifyHead]
    congr 1
    funext scope
    exact Bindings.insert_insert scope name.lexeme _ _
  function := by
    rw [define_eq_bind]
    exact (bind_function _ _).trans
      (h.function.trans ((bind_function _ _).trans (alike_check _ _ _).function))
  classKind := by
    rw [define_eq_bind]
    exact (bind_classKind _ _).trans
      (h.classKind.trans ((bind_classKind _ _).trans (alike_check _ _ _).classKind))
  loopDepth := by
    rw [define_eq_bind]
    exact (bind_loopDepth _ _).trans
      (h.loopDepth.trans ((bind_loopDepth _ _).trans (alike_check _ _ _).loopDepth))

theorem returns_parameters (params : List Token) (c : Context) :
    Returns params c (params.foldl parameter c) := by
  induction params generalizing c with
  | nil => exact Alike.refl.returns
  | cons name rest ih => exact (Returns.define name .parameter .refl).append (ih (c.parameter name))

/-! ## Classes -/

/-- What is open behind a class depends only on what is open behind its methods. -/
theorem Alike.leaveClass (h : Alike c₁ c₂) (superclass : Option Occurrence) :
    Alike (c₁.leaveClass superclass c) (c₂.leaveClass superclass c) := by
  cases superclass with
  | none => exact ⟨congrArg List.tail h.scopes, h.function, rfl, h.loopDepth⟩
  | some _ =>
    exact ⟨congrArg (fun scopes => scopes.tail.tail) h.scopes, h.function, rfl, h.loopDepth⟩

/-- The scope of `this` or `super` is opened and closed again. -/
theorem closeScope_wordScope (k : Keyword) :
    Alike c (c.openScope.bind k.spelling .implicit).closeScope where
  scopes := by
    show (c.openScope.bind k.spelling .implicit).scopes.tail = _
    rw [bind_scopes]
    rfl
  function := bind_function _ _
  classKind := bind_classKind _ _
  loopDepth := bind_loopDepth _ _

theorem enterSuperclass_closeScope (className : Token) (superclass : Occurrence) :
    Alike { c with classKind := .subclass } (c.enterSuperclass className superclass).closeScope := by
  have hcheck := alike_check (c := c) (superclass.name.lexeme == className.lexeme)
    .inheritsFromItself superclass.name
  have hkind {c d : Context} (h : Alike c d) :
      Alike { c with classKind := .subclass } { d with classKind := .subclass } :=
    ⟨h.scopes, h.function, rfl, h.loopDepth⟩
  exact (hkind hcheck).trans (((Expr.variable superclass).alike_resolve _).trans
    (closeScope_wordScope .super))

theorem returns_class (name : Token) (superclass : Option Occurrence) :
    Returns [name] c ((c.enterClass name superclass).leaveClass superclass c) := by
  have hname : Returns [name] { c with classKind := .plain }
      (({ c with classKind := .plain }.declare name).define name .class) := .define name .class .refl
  cases superclass with
  | none =>
    have h := hname.behind (closeScope_wordScope .this)
    exact ⟨h.scopes, h.function, rfl, h.loopDepth⟩
  | some superclass =>
    have hsuper := enterSuperclass_closeScope
      (c := ({ c with classKind := .plain }.declare name).define name .class) name superclass
    have hthis := closeScope_wordScope (c := (({ c with classKind := .plain }.declare name).define
      name .class).enterSuperclass name superclass) .this
    refine ⟨?_, ?_, rfl, ?_⟩
    · exact (congrArg List.tail hthis.scopes).trans (hsuper.scopes.trans hname.scopes)
    · exact hthis.function.trans (hsuper.function.trans hname.function)
    · exact hthis.loopDepth.trans (hsuper.loopDepth.trans hname.loopDepth)

end Context

/-! ## The walk -/

open Context

mutual

/-- **A statement returns to its place** and has made its declarations there. -/
theorem Stmt.returns_resolve (c : Context) : (s : Stmt) → Returns s.exposed c (s.resolve c)
  | .expression e | .print e => (e.alike_resolve c).returns
  | .var name initializer => .define name .variable (Expr.alike_resolveOption _ initializer)
  | .block body => (Stmt.returns_resolveAll c.openScope body).block.returns
  | .ifElse condition thenBranch elseBranch =>
    .before (condition.alike_resolve c)
      ((thenBranch.returns_resolve _).append (Stmt.returns_resolveOption _ elseBranch))
  | .whileLoop condition body =>
    .before (condition.alike_resolve c) (body.returns_resolve _).loop
  | .forLoop initializer condition increment body => by
    have hinitializer := Stmt.returns_resolveOption c.openScope initializer
    have hclauses := (hinitializer.behind (Expr.alike_resolveOption _ condition)).behind
      (Expr.alike_resolveOption _ increment)
    exact (hclauses.append (body.returns_resolve _).loop).block.returns
  | .function declaration =>
    (Returns.define declaration.name .function .refl).behind (declaration.alike_resolve .function _)
  | .class declaration => declaration.returns_resolve c
  | .return keyword value =>
    (((alike_check _ _ keyword).trans (alike_check _ _ keyword)).trans
      (Expr.alike_resolveOption _ value)).returns
  | .break keyword | .continue keyword => (alike_check _ _ keyword).returns

theorem Stmt.returns_resolveAll (c : Context) :
    (ss : List Stmt) → Returns (Stmt.exposedAll ss) c (Stmt.resolveAll c ss)
  | [] => Alike.refl.returns
  | s :: rest => (s.returns_resolve c).append (Stmt.returns_resolveAll _ rest)

theorem Stmt.returns_resolveOption (c : Context) :
    (s : Option Stmt) → Returns (Stmt.exposedOption s) c (Stmt.resolveOption c s)
  | none => Alike.refl.returns
  | some s => s.returns_resolve c

/-- **A function leaves its place as it was.** -/
theorem Function.alike_resolve (kind : FunctionKind) (c : Context) :
    (f : Function) → Alike c (f.resolve kind c)
  | ⟨_, params, body, _⟩ =>
    ((returns_parameters params (c.enterFunction kind)).append (Stmt.returns_resolveAll _ body)).call

theorem Function.alike_resolveMethods (c : Context) :
    (fs : List Function) → Alike c (Function.resolveMethods c fs)
  | [] => .refl
  | f :: rest => (f.alike_resolve f.methodKind c).trans (Function.alike_resolveMethods _ rest)

theorem Class.returns_resolve (c : Context) : (k : Class) → Returns [k.name] c (k.resolve c)
  | ⟨name, superclass, methods, _⟩ =>
    (returns_class name superclass).behind
      ((Function.alike_resolveMethods _ methods).leaveClass superclass)

end

namespace Context

variable {c c' : Context}

/-- The place is the same. In the innermost scope only declared names have another state, and they
are bound to the last declaration of the name. -/
structure Restored (declared : List Token) (c c' : Context) : Prop where
  length : c'.scopes.length = c.scopes.length
  outer : c'.scopes.tail = c.scopes.tail
  kept : ∀ name, (∀ t ∈ declared, t.lexeme ≠ name) → c'.innermost? name = c.innermost? name
  gained : ∀ front t back, declared = front ++ t :: back → (∀ u ∈ back, u.lexeme ≠ t.lexeme) →
    c.scopes ≠ [] → c'.innermost? t.lexeme = some (.declared t.id)
  function : c'.function = c.function
  classKind : c'.classKind = c.classKind
  loopDepth : c'.loopDepth = c.loopDepth

theorem Returns.restored {ts : List Token} (h : Returns ts c c') : Restored ts c c' where
  length := by rw [h.scopes, List.length_modifyHead]
  outer := by rw [h.scopes, List.tail_modifyHead]
  kept name hname := by
    rw [innermost?, innermost?, h.scopes]
    cases c.scopes with
    | nil => rfl
    | cons scope outer => exact ScopeNames.get?_declareAll_of_not_mem hname
  gained front t back hts hback hopen := by
    subst hts
    rw [innermost?, h.scopes]
    cases hscopes : c.scopes with
    | nil => exact absurd hscopes hopen
    | cons scope outer => exact ScopeNames.get?_declareAll hback
  function := h.function
  classKind := h.classKind
  loopDepth := h.loopDepth

end Context

/-! ## What is known -/

/-- References by some of the tokens `us` were added. -/
def Definition.Extends (us : List Token) (d d' : Definition) : Prop :=
  d'.token = d.token ∧ d'.kind = d.kind ∧
    ∃ more, d'.references.toList = d.references.toList ++ more ∧ ∀ t ∈ more, t ∈ us

namespace Definition.Extends

variable {us vs : List Token} {d d₁ d₂ : Definition}

theorem refl : Extends us d d := ⟨rfl, rfl, [], (List.append_nil _).symm, nofun⟩

theorem widen (h : Extends us d d₁) (hsub : ∀ t ∈ us, t ∈ vs) : Extends vs d d₁ := by
  obtain ⟨htoken, hkind, more, hmore, hmem⟩ := h
  exact ⟨htoken, hkind, more, hmore, fun t ht => hsub t (hmem t ht)⟩

theorem trans (h₁ : Extends us d d₁) (h₂ : Extends us d₁ d₂) : Extends us d d₂ := by
  obtain ⟨htoken₁, hkind₁, more₁, hmore₁, hmem₁⟩ := h₁
  obtain ⟨htoken₂, hkind₂, more₂, hmore₂, hmem₂⟩ := h₂
  refine ⟨htoken₂.trans htoken₁, hkind₂.trans hkind₁, more₁ ++ more₂, ?_, ?_⟩
  · rw [hmore₂, hmore₁, List.append_assoc]
  · intro t ht
    exact (List.mem_append.mp ht).elim (hmem₁ t) (hmem₂ t)

end Definition.Extends

namespace SymbolGraph

/-- Every definition has stayed at its place and has at most gained references. -/
def Extends (us : List Token) (g g' : SymbolGraph) : Prop :=
  ∀ (i : Nat) (d : Definition), g.definitions[i]? = some d →
    ∃ d', g'.definitions[i]? = some d' ∧ d.Extends us d'

variable {us vs : List Token} {g g₁ g₂ : SymbolGraph}

namespace Extends

theorem refl : Extends us g g := fun _ d hd => ⟨d, hd, .refl⟩

theorem widen (h : Extends us g g₁) (hsub : ∀ t ∈ us, t ∈ vs) : Extends vs g g₁ := fun i d hd =>
  let ⟨d', hd', hext⟩ := h i d hd
  ⟨d', hd', hext.widen hsub⟩

theorem trans (h₁ : Extends us g g₁) (h₂ : Extends us g₁ g₂) : Extends us g g₂ := fun i d hd =>
  let ⟨d₁, hd₁, hext₁⟩ := h₁ i d hd
  let ⟨d₂, hd₂, hext₂⟩ := h₂ i d₁ hd₁
  ⟨d₂, hd₂, hext₁.trans hext₂⟩

theorem append (h₁ : Extends us g g₁) (h₂ : Extends vs g₁ g₂) : Extends (us ++ vs) g g₂ :=
  (h₁.widen fun _ => List.mem_append_left vs).trans (h₂.widen fun _ => List.mem_append_right us)

end Extends

theorem extends_define (t : Token) (kind : SymbolKind) : Extends us g (g.define t kind) :=
  fun _ d hd => ⟨d, (getElem?_define kind).mpr (.inr hd), .refl⟩

theorem extends_refer (declaring : TokenId) (use : Token) :
    Extends [use] g (g.refer declaring use) := by
  cases hdeclared : g.declared[declaring]? with
  | none =>
    rw [refer_of_none hdeclared]
    exact .refl
  | some index =>
    rw [refer_eq hdeclared]
    intro i d hd
    by_cases hi : index = i
    · refine ⟨_, getElem?_referAt.mpr (.inr ⟨d, hi, hd, rfl⟩), rfl, rfl, [use], ?_, fun _ => id⟩
      exact Array.toList_push
    · exact ⟨d, getElem?_referAt.mpr (.inl ⟨hi, hd⟩), .refl⟩

end SymbolGraph

namespace Context

variable {c c' : Context} {ids : List ExprId} {xs : List Lookup} {ds : List (Token × SymbolKind)}
  {us : List Token}

theorem Steps.extends (h : Steps xs ds us c c') : c.symbols.Extends us c'.symbols := by
  induction h with
  | aside _ hsymbols => exact hsymbols ▸ .refl
  | openScope | closeScope => exact .refl
  | implicit name | uninitialized name =>
    rw [bind_symbols]
    exact .refl
  | @define c name kind =>
    obtain hsame | hnew := c.symbols_define name kind
    · exact hsame ▸ .refl
    · exact hnew ▸ SymbolGraph.extends_define name kind
  | @use c occurrence =>
    obtain hsame | ⟨_, declaring, -, hrefer⟩ := c.symbols_use occurrence
    · exact hsame ▸ .refl
    · exact hrefer ▸ SymbolGraph.extends_refer declaring occurrence.name
  | append _ _ ih₁ ih₂ => exact ih₁.append ih₂
  | swap _ _ ih₁ ih₂ => exact (ih₁.append ih₂).widen fun _ ht => List.perm_append_comm.subset ht
  | widen _ hsub ih => exact ih.widen fun _ ht => hsub.subset ht

theorem Steps.kept (h : Steps xs ds us c c') :
    SymbolGraph.Kept (us.map Token.id) c.symbols c'.symbols := by
  induction h with
  | aside _ hsymbols => exact hsymbols ▸ .refl
  | openScope | closeScope => exact .refl
  | implicit name | uninitialized name =>
    rw [bind_symbols]
    exact .refl
  | @define c name kind =>
    obtain hsame | hnew := c.symbols_define name kind
    · exact hsame ▸ .refl
    · exact hnew ▸ SymbolGraph.kept_define kind List.mem_cons_self
  | @use c occurrence =>
    obtain hsame | ⟨_, declaring, -, hrefer⟩ := c.symbols_use occurrence
    · exact hsame ▸ .refl
    · exact hrefer ▸ SymbolGraph.kept_refer declaring List.mem_cons_self
  | append _ _ ih₁ ih₂ =>
    rw [List.map_append]
    exact ih₁.append ih₂
  | swap _ _ ih₁ ih₂ =>
    rw [List.map_append]
    exact (ih₁.append ih₂).widen fun _ hid => List.perm_append_comm.subset hid
  | widen _ hsub ih => exact ih.widen fun _ hid => List.map_subset Token.id hsub.subset hid

/-- What was known is kept: distances of the occurrences `ids` were recorded, the declarations `ds`
were added behind all others, and uses by the words `us`. -/
structure Extended (ids : List ExprId) (ds : List (Token × SymbolKind)) (us : List Token)
    (c c' : Context) : Prop where
  distances : ∀ id, id ∉ ids → c'.distances[id]? = c.distances[id]?
  declarations : c'.symbols.declarations = c.symbols.declarations ++ ds
  definitions : c.symbols.Extends us c'.symbols
  links : SymbolGraph.Kept (us.map Token.id) c.symbols c'.symbols

theorem Steps.extended (h : Steps xs ds us c c') (hg : Grows ids c c') :
    ∃ new, new.Sublist ds ∧ Extended ids new us c c' := by
  obtain ⟨new, hsub, heq⟩ := h.declared
  exact ⟨new, hsub, hg.distances, heq, h.extends, h.kept⟩

theorem Introduces.extended (hi : Introduces ds c c') (h : Steps xs ds us c c')
    (hg : Grows ids c c') : Extended ids ds us c c' :=
  ⟨hg.distances, hi.declarations, h.extends, h.kept⟩

end Context

/-- **Every part of a program restores the context that it was met in**, for each tree, whether a
text yields it or not. Only where no scope at all is open, a statement may leave declarations out.
-/
theorem context_restored (c : Context) :
    (∀ s : Stmt, Restored s.exposed c (s.resolve c) ∧
      ∃ ds, ds.Sublist s.introduced ∧ (c.scopes ≠ [] → ds = s.introduced) ∧
        Extended s.ids ds s.words c (s.resolve c)) ∧
    (∀ e : Expr, (e.resolve c).scopes = c.scopes ∧ Restored [] c (e.resolve c) ∧
      Extended e.ids [] e.words c (e.resolve c)) ∧
    (∀ (f : Function) (kind : FunctionKind), (f.resolve kind c).scopes = c.scopes ∧
      Restored [] c (f.resolve kind c) ∧ Extended f.ids f.introduced f.words c (f.resolve kind c)) := by
  refine ⟨fun s => ⟨?_, ?_⟩, fun e => ⟨?_, ?_, ?_⟩, fun f kind => ⟨?_, ?_, ?_⟩⟩
  · exact (s.returns_resolve c).restored
  · by_cases hopen : c.scopes = []
    · obtain ⟨ds, hsub, hext⟩ := (s.steps c).extended (s.grows_resolve c)
      exact ⟨ds, hsub, fun h => absurd hopen h, hext⟩
    · exact ⟨_, .refl _, fun _ => rfl,
        (Stmt.introduces hopen s).extended (s.steps c) (s.grows_resolve c)⟩
  · exact (e.alike_resolve c).scopes
  · exact (e.alike_resolve c).returns.restored
  · exact (e.introduces c).extended (e.steps c) (e.grows_resolve c)
  · exact (f.alike_resolve kind c).scopes
  · exact (f.alike_resolve kind c).returns.restored
  · exact (f.introduces kind c).extended (f.steps kind c) (f.grows_resolve kind c)

end Lox
