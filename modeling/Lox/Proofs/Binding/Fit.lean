import Lox.Proofs.Binding.Grow
import Lox.Proofs.Binding.Site

/-!
# Contexts and sites

The context in which the resolver reaches a part of a program fits the site of that part: its
scopes hold the names of the frames, and around it lie the same function, class and loops.

* `Site.distance?_enter`, `Site.distance?_declare`: distances from one site and from the next;
* `ScopeNames.Fits`, `Matches`: the names of a scope and of a frame, of all scopes and frames;
* `Context.Fits`, `Context.Settled`: a context fits a site, outside every initializer;
* `Context.Settled.openScope`, …: the steps of the resolver lead from fitting to fitting contexts.
-/

namespace Lox

/-! ## Distances from neighbouring sites -/

namespace Site

theorem distance?_enter (p : Site) (region : Region) (names : List String) (name : String) :
    (p.enter region names).distance? name =
      if names.contains name then some 0 else (p.distance? name).map (· + 1) := by
  unfold distance? enter
  rw [List.findIdx?_cons]

theorem distance?_declare (p : Site) {name other : String} (hne : name ≠ other) :
    (p.declare name).distance? other = p.distance? other := by
  unfold distance? declare
  cases h : p.frames with
  | nil => simp [h]
  | cons f outer =>
    have : (name :: f.names).contains other = f.names.contains other := by
      simp [Ne.symm hne]
    simp only [List.findIdx?_cons, this]

theorem declare_eq {p : Site} {f : Frame} {rest : List Frame} (hp : p.frames = f :: rest)
    (name : String) :
    p.declare name = { p with frames := { f with names := name :: f.names } :: rest } := by
  unfold declare
  rw [hp]

theorem regions_declare (p : Site) (name : String) : (p.declare name).regions = p.regions := by
  obtain ⟨frames, _, _, _, _⟩ := p
  cases frames <;> rfl

/-- In a subclass the scope of `super` lies right behind that of `this`. -/
def Dispatches (p : Site) : Prop :=
  p.classKind = .subclass →
    ∃ d, p.distance? Keyword.this.spelling = some d ∧
      p.distance? Keyword.super.spelling = some (d + 1)

theorem Dispatches.declare {p : Site} (h : p.Dispatches) {name : String}
    (hname : ∀ k : Keyword, name ≠ k.spelling) : (p.declare name).Dispatches := by
  have hkind : (p.declare name).classKind = p.classKind := by
    unfold Site.declare
    split <;> rfl
  intro hs
  rw [distance?_declare p (hname _), distance?_declare p (hname _)]
  exact h (hkind ▸ hs)

theorem Dispatches.enter {p : Site} (h : p.Dispatches) {region : Region} {names : List String}
    (hnames : ∀ name ∈ names, ∀ k : Keyword, name ≠ k.spelling) :
    (p.enter region names).Dispatches := by
  intro hs
  obtain ⟨d, hthis, hsuper⟩ := h hs
  have hfree (k : Keyword) : names.contains k.spelling = false := by
    rw [Bool.eq_false_iff]
    intro hc
    exact hnames _ (List.contains_iff_mem.mp hc) k rfl
  refine ⟨d + 1, ?_, ?_⟩
  · rw [distance?_enter, hfree, hthis]
    rfl
  · rw [distance?_enter, hfree, hsuper]
    rfl

/-- `q` lies behind `p`, in the same scope. -/
structure Behind (p q : Site) : Prop where
  outer : q.frames.tail = p.frames.tail
  function : q.function = p.function
  classKind : q.classKind = p.classKind
  loopDepth : q.loopDepth = p.loopDepth
  opening : q.opening = p.opening

variable {p q r : Site}

theorem Behind.refl : p.Behind p := ⟨rfl, rfl, rfl, rfl, rfl⟩

theorem Behind.trans (h₁ : p.Behind q) (h₂ : q.Behind r) : p.Behind r :=
  ⟨h₂.outer.trans h₁.outer, h₂.function.trans h₁.function, h₂.classKind.trans h₁.classKind,
    h₂.loopDepth.trans h₁.loopDepth, h₂.opening.trans h₁.opening⟩

theorem behind_declare (name : String) : p.Behind (p.declare name) := by
  unfold declare
  cases h : p.frames with
  | nil => exact .refl
  | cons f outer => exact ⟨by simp [h], rfl, rfl, rfl, rfl⟩

theorem behind_after (s : Stmt) : p.Behind (p.after s) := by
  unfold after
  cases s.declared? with
  | none => exact .refl
  | some name => exact behind_declare name.lexeme

theorem behind_afterAll (ss : List Stmt) : p.Behind (p.afterAll ss) := by
  induction ss generalizing p with
  | nil => exact .refl
  | cons s rest ih => exact (behind_after s).trans ih

theorem behind_afterOption (s : Option Stmt) : p.Behind (p.afterOption s) := by
  cases s with
  | none => exact .refl
  | some s => exact behind_after s

theorem after_of_not_declares {s : Stmt} (h : s.declares = false) : p.after s = p := by
  cases s <;> first | rfl | cases h

end Site

/-! ## Names of scopes and frames -/

/-- A scope has the names of a frame, and the variable that is being initialized. -/
def ScopeNames.Fits (opening : Option String) (scope : ScopeNames) (f : Frame) : Prop :=
  ∀ name, (scope.get? name = some .uninitialized ↔ opening = some name) ∧
    (name ∈ f.names ↔ ∃ b, scope.get? name = some b ∧ b ≠ .uninitialized)

/-- The open scopes have the names of the frames; the innermost one may have a variable that is
being initialized. -/
inductive Matches : Option String → List ScopeNames → List Frame → Prop where
  | top {opening scope f} : ScopeNames.Fits opening scope f → Matches opening [scope] [f]
  | inner {opening scope f outer frames} : ScopeNames.Fits opening scope f →
      Matches none outer frames → Matches opening (scope :: outer) (f :: frames)

namespace ScopeNames.Fits

variable {opening : Option String} {scope : ScopeNames} {f : Frame} {name : String}

theorem empty (region : Region) : ScopeNames.Fits none .empty ⟨region, []⟩ := by
  intro name
  simp

theorem get?_eq_none (h : scope.Fits opening f) (ho : opening ≠ some name) (hn : name ∉ f.names) :
    scope.get? name = none := by
  cases hg : scope.get? name with
  | none => rfl
  | some b =>
    by_cases hb : b = .uninitialized
    · subst hb
      exact absurd ((h name).1.mp hg) ho
    · exact absurd ((h name).2.mpr ⟨b, hg, hb⟩) hn

theorem insert_uninitialized (h : scope.Fits none f) (hnew : scope.get? name = none) :
    ScopeNames.Fits (some name) (scope.insert name .uninitialized) f := by
  intro other
  rw [Bindings.get?_insert]
  by_cases he : name = other
  · subst he
    have := h name
    simp_all
  · have := h other
    simp_all

theorem insert_bound (h : scope.Fits opening f) (ho : ∀ n, opening = some n → n = name)
    {b : Binding} (hb : b ≠ .uninitialized) :
    ScopeNames.Fits none (scope.insert name b) { f with names := name :: f.names } := by
  intro other
  rw [Bindings.get?_insert]
  by_cases he : name = other
  · simp_all
  · have hother := h other
    have hopen : opening ≠ some other := fun hc => he (ho other hc).symm
    simp_all [Ne.symm he]

theorem find?_eq (h : scope.Fits opening f) {outer : List ScopeNames} {frames : List Frame}
    (houter : (Context.find? name outer).map Prod.fst =
      frames.findIdx? fun f => f.names.contains name) :
    (Context.find? name (scope :: outer)).map Prod.fst =
      if opening = some name then some 0
      else (f :: frames).findIdx? fun f => f.names.contains name := by
  rw [Context.find?, List.findIdx?_cons]
  by_cases ho : opening = some name
  · rw [(h name).1.mpr ho, if_pos ho]
    rfl
  · rw [if_neg ho]
    by_cases hn : name ∈ f.names
    · obtain ⟨b, hb, -⟩ := (h name).2.mp hn
      simp [hb, hn]
    · rw [h.get?_eq_none ho hn]
      simp only [List.contains_iff_mem, hn, if_false, ← houter, Option.map_map]
      rfl

end ScopeNames.Fits

/-- The resolver looks for a name in the scopes the way the distance of a site is defined. -/
theorem Matches.find?_eq {scopes : List ScopeNames} {frames : List Frame} {opening : Option String}
    (h : Matches opening scopes frames) (name : String) :
    (Context.find? name scopes).map Prod.fst =
      if opening = some name then some 0
      else frames.findIdx? fun f => f.names.contains name := by
  induction h with
  | top hf => exact hf.find?_eq rfl
  | inner hf _ ih =>
    refine hf.find?_eq ?_
    rw [ih, if_neg (by simp)]

/-- What lies around the innermost scope. -/
inductive MatchesOuter : List ScopeNames → List Frame → Prop where
  | nil : MatchesOuter [] []
  | some {outer frames} : Matches none outer frames → MatchesOuter outer frames

theorem Matches.cons_inv {scopes : List ScopeNames} {frames : List Frame} {opening : Option String}
    (h : Matches opening scopes frames) :
    ∃ scope outer f rest, scopes = scope :: outer ∧ frames = f :: rest ∧
      scope.Fits opening f ∧ MatchesOuter outer rest := by
  cases h with
  | top hf => exact ⟨_, _, _, _, rfl, rfl, hf, .nil⟩
  | inner hf houter => exact ⟨_, _, _, _, rfl, rfl, hf, .some houter⟩

theorem Matches.cons {scope : ScopeNames} {f : Frame} {outer : List ScopeNames} {rest : List Frame}
    {opening : Option String} (hf : scope.Fits opening f) (houter : MatchesOuter outer rest) :
    Matches opening (scope :: outer) (f :: rest) := by
  cases houter with
  | nil => exact .top hf
  | some h => exact .inner hf h

theorem Matches.tail {scopes : List ScopeNames} {frames : List Frame} {opening : Option String}
    (h : Matches opening scopes frames) : MatchesOuter scopes.tail frames.tail := by
  obtain ⟨scope, outer, f, rest, rfl, rfl, -, houter⟩ := h.cons_inv
  exact houter

theorem MatchesOuter.of_cons {scopes : List ScopeNames} {f : Frame} {rest : List Frame}
    (h : MatchesOuter scopes (f :: rest)) : Matches none scopes (f :: rest) := by
  cases h with
  | some h => exact h

/-! ## Fitting contexts -/

namespace Context

/-- A context fits a site. -/
structure Fits (c : Context) (p : Site) : Prop where
  scopes : Matches p.opening c.scopes p.frames
  function : c.function = p.function
  classKind : c.classKind = p.classKind
  loopDepth : c.loopDepth = p.loopDepth
  dispatches : p.Dispatches
  opening : ∀ name, p.opening = some name → ∀ k : Keyword, name ≠ k.spelling

/-- A context fits a site outside every initializer. -/
structure Settled (c : Context) (p : Site) : Prop extends Fits c p where
  closed : p.opening = none

variable {c c' : Context} {p q : Site}

theorem check_complaints {broken : Bool} {problem : StaticProblem} {place : Token}
    (h : (c.check broken problem place).complaints = []) : broken = false := by
  cases broken with
  | false => rfl
  | true => exact absurd h (List.cons_ne_nil _ _)

@[simp] theorem check_false (problem : StaticProblem) (place : Token) :
    c.check false problem place = c := rfl

theorem Fits.alike (h : c.Fits p) (ha : Alike c c') : c'.Fits p :=
  ⟨ha.scopes ▸ h.scopes, ha.function.trans h.function, ha.classKind.trans h.classKind,
    ha.loopDepth.trans h.loopDepth, h.dispatches, h.opening⟩

theorem Settled.alike (h : c.Settled p) (ha : Alike c c') : c'.Settled p :=
  ⟨h.toFits.alike ha, h.closed⟩

theorem settled_start : start.Settled .start where
  scopes := .top (.empty .top)
  function := rfl
  classKind := rfl
  loopDepth := rfl
  dispatches := fun h => by cases h
  opening := fun _ h => by cases h
  closed := rfl

/-- What the resolver finds for a name is what the site says. -/
theorem Fits.find?_eq (h : c.Fits p) (name : String) :
    (find? name c.scopes).map Prod.fst = p.target? name :=
  h.scopes.find?_eq name

/-- A variable is in its initializer as long as its name is not usable. -/
theorem Fits.innermost?_eq (h : c.Fits p) (name : String) :
    c.innermost? name = some .uninitialized ↔ p.opening = some name := by
  obtain ⟨scope, outer, f, rest, hs, -, hf, -⟩ := h.scopes.cons_inv
  rw [innermost?, hs]
  exact (hf name).1

/-! ### Steps from site to site -/

theorem bind_eq {scope : ScopeNames} {outer : List ScopeNames} (hs : c.scopes = scope :: outer)
    (name : String) (b : Binding) :
    c.bind name b = { c with scopes := scope.insert name b :: outer } := by
  unfold bind
  rw [hs]

theorem Settled.declare (h : c.Settled p) {name : Token} (hname : name.Names)
    (hq : (c.declare name).complaints = []) :
    (c.declare name).Fits (p.initializing name.lexeme) := by
  obtain ⟨scope, outer, f, rest, hs, hp, hf, houter⟩ := h.scopes.cons_inv
  rw [Context.declare, bind_complaints] at hq
  have hnew : c.innermost? name.lexeme = none := by
    rw [← Option.not_isSome_iff_eq_none, Bool.not_eq_true]
    exact check_complaints hq
  have hd : c.declare name =
      { c with scopes := scope.insert name.lexeme .uninitialized :: outer } := by
    rw [Context.declare, hnew, Option.isSome_none, check_false, bind_eq hs]
  rw [innermost?, hs] at hnew
  rw [h.closed] at hf
  rw [hd]
  refine ⟨?_, h.function, h.classKind, h.loopDepth, h.dispatches, ?_⟩
  · show Matches (some name.lexeme) (_ :: outer) p.frames
    rw [hp]
    exact .cons (hf.insert_uninitialized hnew) houter
  · intro n hn k
    cases hn
    exact hname.lexeme_ne k

theorem Fits.define {name : Token} (h : c.Fits (p.initializing name.lexeme))
    (hp : p.opening = none) (hname : name.Names) (kind : SymbolKind) :
    (c.define name kind).Settled (p.declare name.lexeme) := by
  obtain ⟨scope, outer, f, rest, hs, hframes, hf, houter⟩ := h.scopes.cons_inv
  have hd : c.define name kind = { c with
      scopes := scope.insert name.lexeme (.declared name.id) :: outer
      symbols := c.symbols.define name kind } := by
    rw [define_of_ne_nil (hs ▸ List.cons_ne_nil _ _), bind_eq hs]
  have hframes' : p.frames = f :: rest := hframes
  have hdisp := Site.Dispatches.declare (p := p) h.dispatches hname.lexeme_ne
  rw [Site.declare_eq hframes'] at hdisp ⊢
  rw [hd]
  refine ⟨⟨?_, h.function, h.classKind, h.loopDepth, hdisp, fun n hn => ?_⟩, hp⟩
  · show Matches p.opening _ _
    rw [hp]
    exact .cons (hf.insert_bound (fun n hn => (Option.some.inj hn).symm) (by simp)) houter
  · rw [show p.opening = some n from hn] at hp
    cases hp

theorem Settled.introduce (h : c.Settled p) {name : Token} (hname : name.Names)
    (kind : SymbolKind) (hq : (c.declare name).complaints = []) :
    ((c.declare name).define name kind).Settled (p.declare name.lexeme) :=
  (h.declare hname hq).define h.closed hname kind

theorem Settled.matchesOuter (h : c.Settled p) : MatchesOuter c.scopes p.frames := by
  have hs := h.scopes
  rw [h.closed] at hs
  exact .some hs

theorem Settled.openScope (h : c.Settled p) (region : Region) :
    c.openScope.Settled (p.enter region []) where
  scopes := by
    show Matches p.opening (.empty :: c.scopes) _
    rw [h.closed]
    exact .cons (.empty region) h.matchesOuter
  function := h.function
  classKind := h.classKind
  loopDepth := h.loopDepth
  dispatches := h.dispatches.enter (by simp)
  opening := h.opening
  closed := h.closed

theorem Settled.closeScope (h : c.Settled q) (hp : c'.Settled p) {region : Region}
    {names : List String} (hq : (p.enter region names).Behind q) : c.closeScope.Settled p where
  scopes := by
    obtain ⟨-, -, f, rest, -, hframes, -, -⟩ := hp.scopes.cons_inv
    have ht := h.scopes.tail
    rw [hq.outer, Site.enter, List.tail_cons, hframes] at ht
    rw [hp.closed, hframes]
    exact ht.of_cons
  function := h.function.trans hq.function
  classKind := h.classKind.trans hq.classKind
  loopDepth := h.loopDepth.trans hq.loopDepth
  dispatches := hp.dispatches
  opening := hp.opening
  closed := hp.closed

theorem Settled.enterLoop (h : c.Settled p) : c.enterLoop.Settled p.enterLoop :=
  ⟨⟨h.scopes, h.function, h.classKind, congrArg (· + 1) h.loopDepth, h.dispatches, h.opening⟩,
    h.closed⟩

theorem Settled.leaveLoop (h : c.Settled p.enterLoop) : c.leaveLoop.Settled p :=
  ⟨⟨h.scopes, h.function, h.classKind, congrArg (· - 1) h.loopDepth, h.dispatches, h.opening⟩,
    h.closed⟩

/-- The frames of a site matter by the names they have, in whatever order. -/
theorem Settled.reorder {region : Region} {names names' : List String} {rest : List Frame}
    (h : c.Settled { p with frames := ⟨region, names⟩ :: rest })
    (hnames : ∀ name, name ∈ names ↔ name ∈ names') :
    c.Settled { p with frames := ⟨region, names'⟩ :: rest } where
  scopes := by
    obtain ⟨scope, outer, f, rest', hs, hf, hfits, houter⟩ := h.scopes.cons_inv
    rw [hs]
    cases hf
    exact .cons (fun name => ⟨(hfits name).1, (hnames name).symm.trans (hfits name).2⟩) houter
  function := h.function
  classKind := h.classKind
  loopDepth := h.loopDepth
  dispatches := by
    have hcontains (name : String) : names'.contains name = names.contains name := by
      rw [Bool.eq_iff_iff, List.contains_iff_mem, List.contains_iff_mem]
      exact (hnames name).symm
    intro hs
    have hd := h.dispatches hs
    unfold Site.distance? at hd ⊢
    simp only [List.findIdx?_cons, hcontains] at hd ⊢
    exact hd
  opening := h.opening
  closed := h.closed

theorem Settled.enterFunction (h : c.Settled p) (kind : FunctionKind) (f : Function) :
    (c.enterFunction kind).Settled
      { p.enter (.function f) [] with function := kind, loopDepth := 0 } :=
  have ho := h.openScope (.function f)
  ⟨⟨ho.scopes, rfl, ho.classKind, rfl, ho.dispatches, ho.opening⟩, ho.closed⟩

theorem Settled.parameters {region : Region} {names : List String} {rest : List Frame}
    (params : List Token) (hparams : ∀ t ∈ params, t.Names)
    (h : c.Settled { p with frames := ⟨region, names⟩ :: rest })
    (hq : (params.foldl parameter c).complaints = []) :
    (params.foldl parameter c).Settled
      { p with frames := ⟨region, names ++ params.map Token.lexeme⟩ :: rest } := by
  induction params generalizing c names with
  | nil => simpa using h
  | cons t params ih =>
    rw [List.foldl_cons] at hq ⊢
    have hq' := (grows_parameters params (c.parameter t)).quiet hq
    have hq'' := (grows_define t .parameter).quiet hq'
    have hstep := h.introduce (hparams t List.mem_cons_self) .parameter hq''
    have hmore := ih (fun u hu => hparams u (List.mem_cons_of_mem t hu)) hstep hq
    refine hmore.reorder fun name => ?_
    simp [or_left_comm]

theorem Settled.leaveFunction (h : c.Settled q) (hp : c'.Settled p) {kind : FunctionKind}
    {f : Function} (hq : (p.enterFunction kind f).Behind q) : (c.leaveFunction c').Settled p where
  scopes := by
    obtain ⟨-, -, g, rest, -, hframes, -, -⟩ := hp.scopes.cons_inv
    have ht := h.scopes.tail
    rw [hq.outer, Site.enterFunction, Site.enter, List.tail_cons, hframes] at ht
    rw [hp.closed, hframes]
    exact ht.of_cons
  function := hp.function
  classKind := h.classKind.trans hq.classKind
  loopDepth := hp.loopDepth
  dispatches := hp.dispatches
  opening := hp.opening
  closed := hp.closed

end Context

end Lox
