import Mathlib.Data.List.Perm.Subperm
import Lox.Proofs.Binding.Grow
import Lox.Proofs.Binding.Lookups
import Lox.Proofs.Syntax.Namings
import Lox.Proofs.Syntax.Order

/-!
# The walk of the resolver as a row of steps

What the walk over a part of a program does to the open scopes and to the symbols is a row of few
kinds of steps: a scope is opened or closed, a name is declared, made usable or used. Each word of the
part is passed at most once, and the declarations are made in the order of the text.

* `Context.Steps`: steps that make certain uses and declarations and pass certain words;
* **`Expr.steps`**, **`Stmt.steps`**, …: the walk over every part of a program is a row of steps;
* `Context.Introduces`: declarations were added, **`Stmt.introduces`**, …: all that stand in the text, where
  a scope is open;
* **`definitions_of_resolve`**: the definitions of a program are its declarations, in their order.
-/

namespace Lox

namespace Context

/-- A row of steps of the resolver: the uses and the declarations that it makes, the words that it
passes, in the order of the text, the context in front of it and the one behind it. -/
inductive Steps :
    List Lookup → List (Token × SymbolKind) → List Token → Context → Context → Prop where
  /-- Neither the scopes nor the symbols nor the distances change. -/
  | aside {c c'} : c'.scopes = c.scopes → c'.symbols = c.symbols → c'.distances = c.distances →
      Steps [] [] [] c c'
  | openScope {c} : Steps [] [] [] c c.openScope
  | closeScope {c} : Steps [] [] [] c c.closeScope
  | implicit {c} (name : String) : Steps [] [] [] c (c.bind name .implicit)
  | uninitialized {c} (name : String) : Steps [] [] [] c (c.bind name .uninitialized)
  | define {c} (name : Token) (kind : SymbolKind) :
      Steps [] [(name, kind)] [name] c (c.define name kind)
  | use {c} (occurrence : Occurrence) : Steps [⟨c, occurrence⟩] [] [occurrence.name] c (c.use occurrence)
  | append {xs ys ds es us vs c c₁ c₂} : Steps xs ds us c c₁ → Steps ys es vs c₁ c₂ →
      Steps (xs ++ ys) (ds ++ es) (us ++ vs) c c₂
  /-- In the text, steps that declare nothing stand behind the next ones. -/
  | swap {xs ys ds us vs c c₁ c₂} : Steps xs [] us c c₁ → Steps ys ds vs c₁ c₂ →
      Steps (xs ++ ys) ds (vs ++ us) c c₂
  /-- Some words may be left out. -/
  | widen {xs ds us vs c c'} : Steps xs ds us c c' → us.Sublist vs → Steps xs ds vs c c'

namespace Steps

variable {c c₁ c₂ : Context} {xs ys : List Lookup} {ds es : List (Token × SymbolKind)}
  {us vs : List Token}

theorem refl : Steps [] [] [] c c := .aside rfl rfl rfl

theorem before (h₁ : Steps [] [] [] c c₁) (h₂ : Steps xs ds us c₁ c₂) : Steps xs ds us c c₂ := h₁.append h₂

theorem behind (h₁ : Steps xs ds us c c₁) (h₂ : Steps [] [] [] c₁ c₂) : Steps xs ds us c c₂ := by
  have h := h₁.append h₂
  rwa [List.append_nil, List.append_nil, List.append_nil] at h

theorem uses (h₁ : Steps xs [] us c c₁) (h₂ : Steps ys ds vs c₁ c₂) :
    Steps (xs ++ ys) ds (us ++ vs) c c₂ := h₁.append h₂

theorem usesBehind (h₁ : Steps xs ds us c c₁) (h₂ : Steps ys [] vs c₁ c₂) :
    Steps (xs ++ ys) ds (us ++ vs) c c₂ := by
  have h := h₁.append h₂
  rwa [List.append_nil] at h

theorem declaring (h : Steps xs [] us c c₁) (name : Token) (kind : SymbolKind) :
    Steps xs [(name, kind)] (name :: us) c (c₁.define name kind) := by
  have h := h.swap (.define name kind)
  rwa [List.append_nil] at h

theorem unpassed (h : Steps xs ds [] c c₁) (vs : List Token) : Steps xs ds vs c c₁ :=
  h.widen vs.nil_sublist

end Steps

/-! ## Single steps -/

section

variable {c : Context}

theorem steps_check (broken : Bool) (problem : StaticProblem) (place : Token) :
    Steps [] [] [] c (c.check broken problem place) := by
  unfold check
  split <;> exact .aside rfl rfl rfl

theorem steps_complain (problem : StaticProblem) (place : Token) :
    Steps [] [] [] c (c.complain problem place) := .aside rfl rfl rfl

theorem steps_classKind (kind : ClassKind) : Steps [] [] [] c { c with classKind := kind } :=
  .aside rfl rfl rfl

theorem steps_enterLoop : Steps [] [] [] c c.enterLoop := .aside rfl rfl rfl

theorem steps_leaveLoop : Steps [] [] [] c c.leaveLoop := .aside rfl rfl rfl

theorem steps_wordScope (k : Keyword) : Steps [] [] [] c (c.openScope.bind k.spelling .implicit) :=
  Steps.openScope.before (.implicit _)

theorem steps_declare (name : Token) : Steps [] [] [] c (c.declare name) :=
  (steps_check _ _ _).before (.uninitialized _)

theorem steps_introduce (name : Token) (kind : SymbolKind) :
    Steps [] [(name, kind)] [name] c ((c.declare name).define name kind) :=
  (steps_declare name).before (.define name kind)

theorem steps_parameters (params : List Token) (c : Context) :
    Steps [] (params.map (·, .parameter)) params c (params.foldl parameter c) := by
  induction params generalizing c with
  | nil => exact .refl
  | cons name rest ih => exact (steps_introduce name .parameter).append (ih _)

theorem steps_leaveFunction (outside : Context) : Steps [] [] [] c (c.leaveFunction outside) :=
  Steps.closeScope.behind (.aside rfl rfl rfl)

end

end Context

open Context

/-! ## Expressions -/

mutual

/-- **The walk over an expression** passes its words and declares nothing. -/
theorem Expr.steps (c : Context) : (e : Expr) → Steps (e.lookups c) [] e.words c (e.resolve c)
  | .literal _ => .refl
  | .grouping inner => inner.steps c
  | .unary _ _ operand => operand.steps c
  | .binary left _ _ right | .logical left _ _ right => (left.steps c).append (right.steps _)
  | .variable use => (steps_check _ _ _).before (.use use)
  | .assign target value => (value.steps c).swap (.use target)
  | .call callee arguments _ => (callee.steps c).append (Expr.stepsAll _ arguments)
  | .get object _ => object.steps c
  | .set object _ value => (object.steps c).append (value.steps _)
  | .this keyword => by
    rw [resolve, lookups]
    cases c.classKind with
    | none => exact (steps_complain _ _).unpassed _
    | plain | subclass => exact .use keyword
  | .super keyword _ => by
    rw [resolve, lookups]
    cases c.classKind with
    | none | plain => exact (steps_complain _ _).unpassed _
    | subclass => exact .use keyword

theorem Expr.stepsAll (c : Context) :
    (es : List Expr) → Steps (Expr.lookupsAll c es) [] (Expr.wordsAll es) c (Expr.resolveAll c es)
  | [] => .refl
  | e :: rest => (e.steps c).append (Expr.stepsAll _ rest)

end

theorem Expr.stepsOption (c : Context) :
    (e : Option Expr) →
      Steps (Expr.lookupsOption c e) [] (Expr.wordsOption e) c (Expr.resolveOption c e)
  | none => .refl
  | some e => e.steps c

/-! ## Statements -/

section

variable {c : Context}

theorem steps_enterSuperclass (className : Token) (superclass : Occurrence) :
    Steps (c.superclassLookups className superclass) [] [superclass.name] c
      (c.enterSuperclass className superclass) :=
  (steps_check _ _ _).before <| (steps_classKind .subclass).before <|
    ((Expr.variable superclass).steps _).behind (steps_wordScope .super)

theorem steps_enterClass (name : Token) (superclass : Option Occurrence) :
    Steps (c.classLookups name superclass) [(name, .class)] (name :: Occurrence.wordsOption superclass) c
      (c.enterClass name superclass) := by
  have hname : Steps [] [(name, .class)] [name] c
      (({ c with classKind := .plain }.declare name).define name .class) :=
    (steps_classKind .plain).before (steps_introduce name .class)
  cases superclass with
  | none => exact hname.behind (steps_wordScope .this)
  | some superclass =>
    exact (hname.usesBehind (steps_enterSuperclass name superclass)).behind (steps_wordScope .this)

theorem steps_leaveClass (superclass : Option Occurrence) (outside : Context) :
    Steps [] [] [] c (c.leaveClass superclass outside) := by
  cases superclass with
  | none => exact Steps.closeScope.before (.aside rfl rfl rfl)
  | some _ => exact Steps.closeScope.before (Steps.closeScope.before (.aside rfl rfl rfl))

end

mutual

/-- **The walk over a statement** makes its declarations in their order and passes its words. -/
theorem Stmt.steps (c : Context) : (s : Stmt) → Steps (s.lookups c) s.introduced s.words c (s.resolve c)
  | .expression e | .print e => by
    rw [Stmt.introduced, Stmt.namings, Expr.declaration?_namings]
    exact e.steps c
  | .var name initializer => by
    rw [Stmt.introduced_var]
    exact ((steps_declare name).before (Expr.stepsOption _ initializer)).declaring name .variable
  | .block body => Steps.openScope.before ((Stmt.stepsAll _ body).behind .closeScope)
  | .ifElse condition thenBranch elseBranch => by
    rw [Stmt.introduced_ifElse]
    exact ((condition.steps c).uses (thenBranch.steps _)).append (Stmt.stepsOption _ elseBranch)
  | .whileLoop condition body => by
    rw [Stmt.introduced_whileLoop]
    exact (condition.steps c).uses ((steps_enterLoop.before (body.steps _)).behind steps_leaveLoop)
  | .forLoop initializer condition increment body => by
    rw [Stmt.introduced_forLoop]
    have hclauses := ((Stmt.stepsOption c.openScope initializer).usesBehind
      (Expr.stepsOption _ condition)).usesBehind (Expr.stepsOption _ increment)
    have hbody {d : Context} :
        Steps (body.lookups d.enterLoop) body.introduced body.words d (body.resolve d.enterLoop).leaveLoop :=
      (steps_enterLoop.before (body.steps _)).behind steps_leaveLoop
    exact Steps.openScope.before ((hclauses.append hbody).behind .closeScope)
  | .function declaration => (steps_introduce declaration.name .function).append (declaration.steps _ _)
  | .class declaration => declaration.steps c
  | .return _ value => by
    rw [Stmt.introduced, Stmt.namings, Expr.declaration?_namingsOption]
    exact (steps_check _ _ _).before ((steps_check _ _ _).before (Expr.stepsOption _ value))
  | .break _ | .continue _ => steps_check _ _ _

theorem Stmt.stepsAll (c : Context) :
    (ss : List Stmt) →
      Steps (Stmt.lookupsAll c ss) (Stmt.introducedAll ss) (Stmt.wordsAll ss) c (Stmt.resolveAll c ss)
  | [] => .refl
  | s :: rest => by
    rw [Stmt.introducedAll_cons]
    exact (s.steps c).append (Stmt.stepsAll _ rest)

theorem Stmt.stepsOption (c : Context) : (s : Option Stmt) →
    Steps (Stmt.lookupsOption c s) (Stmt.introducedOption s) (Stmt.wordsOption s) c
      (Stmt.resolveOption c s)
  | none => .refl
  | some s => s.steps c

theorem Function.steps (kind : FunctionKind) (c : Context) :
    (f : Function) → Steps (f.lookups kind c) f.introduced f.words c (f.resolve kind c)
  | ⟨name, params, body, span⟩ => by
    rw [Function.introduced_mk]
    have henter : Steps [] [] [] c (c.enterFunction kind) := Steps.openScope.behind (.aside rfl rfl rfl)
    exact henter.before (((steps_parameters params _).append (Stmt.stepsAll _ body)).behind
      (steps_leaveFunction c))

theorem Function.stepsMethods (c : Context) : (fs : List Function) →
    Steps (Function.lookupsMethods c fs) (Function.introducedMethods fs) (Function.wordsAll fs) c
      (Function.resolveMethods c fs)
  | [] => .refl
  | f :: rest => by
    rw [Function.introducedMethods_cons]
    exact (f.steps _ c).append (Function.stepsMethods _ rest)

theorem Class.steps (c : Context) : (k : Class) → Steps (k.lookups c) k.introduced k.words c (k.resolve c)
  | ⟨name, superclass, methods, span⟩ => by
    rw [Class.introduced_mk]
    exact ((steps_enterClass name superclass).append (Function.stepsMethods _ methods)).behind
      (steps_leaveClass superclass c)

end

/-! ## Definitions -/

/-- The definitions of a graph as declarations. -/
def SymbolGraph.declarations (g : SymbolGraph) : List (Token × SymbolKind) :=
  g.definitions.toList.map fun d => (d.token, d.kind)

namespace SymbolGraph

variable {g : SymbolGraph}

theorem declarations_define (name : Token) (kind : SymbolKind) :
    (g.define name kind).declarations = g.declarations ++ [(name, kind)] := by
  simp [declarations, define]

theorem declarations_refer (declaring : TokenId) (use : Token) :
    (g.refer declaring use).declarations = g.declarations := by
  unfold refer
  cases g.declared[declaring]? with
  | none => rfl
  | some index =>
    refine List.ext_getElem? fun i => ?_
    simp only [declarations, List.getElem?_map, Array.getElem?_toList, Array.getElem?_modify]
    split
    · cases g.definitions[i]? <;> rfl
    · rfl

end SymbolGraph

namespace Context

variable {c c' c₁ c₂ : Context} {xs : List Lookup} {ds es : List (Token × SymbolKind)}
  {us : List Token}

/-- A name that becomes usable is a new definition, unless no scope is open. -/
theorem symbols_define (name : Token) (kind : SymbolKind) :
    (c.define name kind).symbols = c.symbols ∨
      (c.define name kind).symbols = c.symbols.define name kind := by
  by_cases hopen : c.scopes = []
  · exact .inl (by rw [define_of_nil hopen])
  · exact .inr (define_symbols hopen name kind)

/-- A use adds nothing to the symbols, or a reference to what the name is bound to. -/
theorem symbols_use (occurrence : Occurrence) : (c.use occurrence).symbols = c.symbols ∨
    ∃ distance declaring, find? occurrence.name.lexeme c.scopes = some (distance, .declared declaring) ∧
      (c.use occurrence).symbols = c.symbols.refer declaring occurrence.name := by
  unfold use
  split
  · exact .inl rfl
  · split
    · exact .inr ⟨_, _, by assumption, rfl⟩
    · exact .inl rfl

/-- **Steps add declarations behind all others**: some of theirs, in their order. Where no scope is
open, nothing is declared. -/
theorem Steps.declared (h : Steps xs ds us c c') :
    ∃ new, new.Sublist ds ∧ c'.symbols.declarations = c.symbols.declarations ++ new := by
  induction h with
  | aside _ hsymbols => exact ⟨[], .refl _, by rw [hsymbols, List.append_nil]⟩
  | openScope | closeScope => exact ⟨[], .refl _, (List.append_nil _).symm⟩
  | implicit name | uninitialized name => exact ⟨[], .refl _, by rw [bind_symbols, List.append_nil]⟩
  | @define c name kind =>
    obtain hsame | hnew := c.symbols_define name kind
    · exact ⟨[], List.nil_sublist _, by rw [hsame, List.append_nil]⟩
    · exact ⟨_, .refl _, by rw [hnew, SymbolGraph.declarations_define]⟩
  | @use c occurrence =>
    refine ⟨[], .refl _, ?_⟩
    rw [List.append_nil]
    obtain hsame | ⟨_, declaring, -, hrefer⟩ := c.symbols_use occurrence
    · rw [hsame]
    · rw [hrefer, SymbolGraph.declarations_refer]
  | append _ _ ih₁ ih₂ =>
    obtain ⟨new₁, hsub₁, heq₁⟩ := ih₁
    obtain ⟨new₂, hsub₂, heq₂⟩ := ih₂
    exact ⟨new₁ ++ new₂, hsub₁.append hsub₂, by rw [heq₂, heq₁, List.append_assoc]⟩
  | swap _ _ ih₁ ih₂ =>
    obtain ⟨new₁, hsub₁, heq₁⟩ := ih₁
    obtain ⟨new₂, hsub₂, heq₂⟩ := ih₂
    obtain rfl := List.sublist_nil.mp hsub₁
    exact ⟨new₂, hsub₂, by rw [heq₂, heq₁, List.append_nil]⟩
  | widen _ _ ih => exact ih

/-! ## Declarations where a scope is open -/

/-- As many scopes are open, and the declarations were added behind all others. -/
structure Introduces (ds : List (Token × SymbolKind)) (c c' : Context) : Prop where
  length : c'.scopes.length = c.scopes.length
  declarations : c'.symbols.declarations = c.symbols.declarations ++ ds

namespace Introduces

theorem of_eq (hscopes : c'.scopes = c.scopes) (hsymbols : c'.symbols = c.symbols) :
    Introduces [] c c' :=
  ⟨congrArg List.length hscopes, by rw [hsymbols, List.append_nil]⟩

theorem refl : Introduces [] c c := of_eq rfl rfl

theorem append (h₁ : Introduces ds c c₁) (h₂ : Introduces es c₁ c₂) : Introduces (ds ++ es) c c₂ :=
  ⟨h₂.length.trans h₁.length, by rw [h₂.declarations, h₁.declarations, List.append_assoc]⟩

theorem before (h₁ : Introduces [] c c₁) (h₂ : Introduces ds c₁ c₂) : Introduces ds c c₂ := h₁.append h₂

theorem behind (h₁ : Introduces ds c c₁) (h₂ : Introduces [] c₁ c₂) : Introduces ds c c₂ := by
  have h := h₁.append h₂
  rwa [List.append_nil] at h

theorem closed (h : Introduces ds c.openScope c₁) : Introduces ds c c₁.closeScope :=
  ⟨by rw [closeScope, List.length_tail, h.length]; rfl, h.declarations⟩

theorem loop (h : Introduces ds c.enterLoop c₁) : Introduces ds c c₁.leaveLoop := ⟨h.length, h.declarations⟩

theorem call {kind : FunctionKind} (h : Introduces ds (c.enterFunction kind) c₁) :
    Introduces ds c (c₁.leaveFunction c) :=
  have hclosed : Introduces ds c c₁.closeScope := closed ⟨h.length, h.declarations⟩
  ⟨hclosed.length, hclosed.declarations⟩

theorem ne_nil (h : Introduces ds c c₁) (hc : c.scopes ≠ []) : c₁.scopes ≠ [] := by
  rw [← List.length_pos_iff] at hc ⊢
  exact h.length ▸ hc

end Introduces

theorem length_bind (name : String) (binding : Binding) :
    (c.bind name binding).scopes.length = c.scopes.length := by
  unfold bind
  split
  · rfl
  · next h => rw [h]; rfl

theorem introduces_bind (name : String) (binding : Binding) : Introduces [] c (c.bind name binding) :=
  ⟨length_bind name binding, by rw [bind_symbols, List.append_nil]⟩

theorem introduces_check (broken : Bool) (problem : StaticProblem) (place : Token) :
    Introduces [] c (c.check broken problem place) := by
  unfold check
  split <;> exact .of_eq rfl rfl

theorem introduces_declare (name : Token) : Introduces [] c (c.declare name) :=
  (introduces_check _ _ _).before (introduces_bind _ _)

theorem introduces_define (hc : c.scopes ≠ []) (name : Token) (kind : SymbolKind) :
    Introduces [(name, kind)] c (c.define name kind) := by
  rw [define_of_ne_nil hc]
  exact ⟨length_bind _ _, SymbolGraph.declarations_define name kind⟩

theorem introduces_introduce (hc : c.scopes ≠ []) (name : Token) (kind : SymbolKind) :
    Introduces [(name, kind)] c ((c.declare name).define name kind) :=
  (introduces_declare name).before (introduces_define ((introduces_declare name).ne_nil hc) name kind)

theorem introduces_parameters (params : List Token) (hc : c.scopes ≠ []) :
    Introduces (params.map (·, .parameter)) c (params.foldl parameter c) := by
  induction params generalizing c with
  | nil => exact .refl
  | cons name rest ih =>
    have hname := introduces_introduce hc name .parameter
    exact hname.append (ih (hname.ne_nil hc))

end Context

theorem Expr.introduces (c : Context) (e : Expr) : Introduces [] c (e.resolve c) := by
  obtain ⟨new, hsub, heq⟩ := (e.steps c).declared
  obtain rfl := List.sublist_nil.mp hsub
  exact ⟨congrArg List.length (e.alike_resolve c).scopes, heq⟩

theorem Expr.introducesOption (c : Context) : (e : Option Expr) → Introduces [] c (Expr.resolveOption c e)
  | none => .refl
  | some e => e.introduces c

theorem introduces_superclass {c : Context} (className : Token) (superclass : Occurrence) :
    ∃ c₁, Introduces [] c c₁ ∧ c.enterSuperclass className superclass =
      c₁.openScope.bind Keyword.super.spelling .implicit := by
  have hcheck := introduces_check (c := c) (superclass.name.lexeme == className.lexeme)
    .inheritsFromItself superclass.name
  have hkind {c : Context} : Introduces [] c { c with classKind := .subclass } := .of_eq rfl rfl
  exact ⟨_, (hcheck.before hkind).before ((Expr.variable superclass).introduces _), rfl⟩

theorem introduces_class {c c' : Context} (hc : c.scopes ≠ []) (name : Token)
    (superclass : Option Occurrence) {ds : List (Token × SymbolKind)}
    (h : Introduces ds (c.enterClass name superclass) c') :
    Introduces ((name, .class) :: ds) c (c'.leaveClass superclass c) := by
  have hplain : Introduces [] c { c with classKind := .plain } := .of_eq rfl rfl
  have hname := hplain.before (introduces_introduce (hplain.ne_nil hc) name .class)
  have hthis {c₀ : Context} (h : Introduces ds (c₀.openScope.bind Keyword.this.spelling .implicit) c') :
      Introduces ds c₀ c'.closeScope := ((introduces_bind _ _).before h).closed
  cases superclass with
  | none => exact (hname.append (hthis h)).behind (.of_eq rfl rfl)
  | some superclass =>
    obtain ⟨c₁, hread, henter⟩ := introduces_superclass name superclass
    have hsuper : Introduces ds (c₁.openScope.bind Keyword.super.spelling .implicit) c'.closeScope :=
      hthis (henter ▸ h)
    have hbody := hread.before ((introduces_bind _ _).before hsuper).closed
    exact (hname.append hbody).behind (.of_eq rfl rfl)

mutual

/-- **Where a scope is open, a statement makes all its declarations.** -/
theorem Stmt.introduces {c : Context} (hc : c.scopes ≠ []) :
    (s : Stmt) → Introduces s.introduced c (s.resolve c)
  | .expression e | .print e => by
    rw [Stmt.introduced, Stmt.namings, Expr.declaration?_namings]
    exact e.introduces c
  | .var name initializer => by
    rw [Stmt.introduced_var]
    have hinit := (introduces_declare name).before (Expr.introducesOption (c.declare name) initializer)
    exact hinit.before (introduces_define (hinit.ne_nil hc) name .variable)
  | .block body => (Stmt.introducesAll (List.cons_ne_nil _ _) body).closed
  | .ifElse condition thenBranch elseBranch => by
    rw [Stmt.introduced_ifElse]
    have hcondition := (condition.introduces c).ne_nil hc
    have hthen := Stmt.introduces hcondition thenBranch
    exact (condition.introduces c).before
      (hthen.append (Stmt.introducesOption (hthen.ne_nil hcondition) elseBranch))
  | .whileLoop condition body => by
    rw [Stmt.introduced_whileLoop]
    have hbody := (condition.introduces c).ne_nil hc
    exact (condition.introduces c).before (.loop (Stmt.introduces (c := Context.enterLoop _) hbody body))
  | .forLoop initializer condition increment body => by
    rw [Stmt.introduced_forLoop]
    have hopen : c.openScope.scopes ≠ [] := List.cons_ne_nil _ _
    have hclauses := ((Stmt.introducesOption hopen initializer).behind
      (Expr.introducesOption _ condition)).behind (Expr.introducesOption _ increment)
    exact (hclauses.append (.loop (Stmt.introduces (c := Context.enterLoop _) (hclauses.ne_nil hopen) body))).closed
  | .function declaration =>
    (introduces_introduce hc declaration.name .function).append (declaration.introduces _ _)
  | .class declaration => Class.introduces hc declaration
  | .return _ value => by
    rw [Stmt.introduced, Stmt.namings, Expr.declaration?_namingsOption]
    exact (introduces_check _ _ _).before ((introduces_check _ _ _).before (Expr.introducesOption _ value))
  | .break _ | .continue _ => introduces_check _ _ _

theorem Stmt.introducesAll {c : Context} (hc : c.scopes ≠ []) :
    (ss : List Stmt) → Introduces (Stmt.introducedAll ss) c (Stmt.resolveAll c ss)
  | [] => .refl
  | s :: rest => by
    rw [Stmt.introducedAll_cons]
    have hs := Stmt.introduces hc s
    exact hs.append (Stmt.introducesAll (hs.ne_nil hc) rest)

theorem Stmt.introducesOption {c : Context} (hc : c.scopes ≠ []) :
    (s : Option Stmt) → Introduces (Stmt.introducedOption s) c (Stmt.resolveOption c s)
  | none => .refl
  | some s => Stmt.introduces hc s

theorem Function.introduces (kind : FunctionKind) (c : Context) :
    (f : Function) → Introduces f.introduced c (f.resolve kind c)
  | ⟨name, params, body, span⟩ => by
    rw [Function.introduced_mk]
    have hopen : (c.enterFunction kind).scopes ≠ [] := List.cons_ne_nil _ _
    have hparams := introduces_parameters params hopen
    have hbody := hparams.append (Stmt.introducesAll (hparams.ne_nil hopen) body)
    exact hbody.call

theorem Function.introducesMethods (c : Context) : (fs : List Function) →
    Introduces (Function.introducedMethods fs) c (Function.resolveMethods c fs)
  | [] => .refl
  | f :: rest => by
    rw [Function.introducedMethods_cons]
    exact (f.introduces _ c).append (Function.introducesMethods _ rest)

theorem Class.introduces {c : Context} (hc : c.scopes ≠ []) :
    (k : Class) → Introduces k.introduced c (k.resolve c)
  | ⟨name, superclass, methods, span⟩ => by
    rw [Class.introduced_mk]
    exact introduces_class hc name superclass (Function.introducesMethods _ methods)

end

/-- **The definitions of a program are its declarations**, in the order of the text. -/
theorem definitions_of_resolve (program : List Stmt) :
    (resolve program).symbols.declarations = Stmt.introducedAll program :=
  (Stmt.introducesAll (c := .start) (List.cons_ne_nil _ _) program).declarations

end Lox
