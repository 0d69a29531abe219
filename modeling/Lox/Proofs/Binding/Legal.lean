import Lox.Proofs.Binding.Fit

/-!
# What a program without static problems is like

* `Mark.Legal`: a mark agrees with its site and with the distances that were recorded;
* `Context.New`, `Recorded`: occurrences without a distance, marks that agree with what is recorded;
* `Expr.recorded_resolve`, `Stmt.recorded_resolve`, …: a part of a program about which the resolver
  does not complain is legal;
* **`legal_of_resolve`**: so is every program without static problems.
-/

namespace Lox

/-- A mark agrees with its site and with the recorded distances. -/
def Mark.Legal (distances : Distances) (p : Site) : Mark → Prop
  | .statement _ => True
  | .read use => distances[use.id]? = p.distance? use.name.lexeme
  | .write target => distances[target.id]? = p.target? target.name.lexeme
  | .super keyword =>
    ∃ d, p.distance? Keyword.this.spelling = some d ∧ distances[keyword.id]? = some (d + 1) ∧
      p.distance? Keyword.super.spelling = some (d + 1) ∧
      keyword.name.lexeme = Keyword.super.spelling
  | .name token => ∀ k : Keyword, token.lexeme ≠ k.spelling
  | .return => p.function ≠ .none
  | .break => p.loopDepth ≠ 0
  | .continue => p.loopDepth ≠ 0

/-- The marks agree with their sites, as long as the distances of certain occurrences are those
that were recorded. -/
def Recorded (ids : List ExprId) (sites : List (Site × Mark)) (c : Context) : Prop :=
  ∀ distances : Distances, (∀ id ∈ ids, distances[id]? = c.distances[id]?) →
    ∀ x ∈ sites, x.2.Legal distances x.1

/-- Nothing is recorded yet for occurrences with different numbers. -/
structure Context.New (ids : List ExprId) (c : Context) : Prop where
  nodup : ids.Nodup
  unknown : ∀ id ∈ ids, c.distances[id]? = none

open Context

namespace Context.New

variable {c c₁ : Context} {xs ys : List ExprId}

theorem left (h : New (xs ++ ys) c) : New xs c :=
  ⟨(List.nodup_append.mp h.nodup).1, fun id hid => h.unknown id (List.mem_append_left ys hid)⟩

theorem disjoint (h : New (xs ++ ys) c) : ∀ id ∈ ys, id ∉ xs := fun id hy hx =>
  (List.nodup_append.mp h.nodup).2.2 id hx id hy rfl

theorem right (h : New (xs ++ ys) c) (hg : Grows xs c c₁) : New ys c₁ := by
  refine ⟨(List.nodup_append.mp h.nodup).2.1, fun id hid => ?_⟩
  rw [hg.distances id (h.disjoint id hid)]
  exact h.unknown id (List.mem_append_right xs hid)

theorem perm (h : New xs c) (hp : xs.Perm ys) : New ys c :=
  ⟨hp.nodup_iff.mp h.nodup, fun id hid => h.unknown id (hp.mem_iff.mpr hid)⟩

theorem step (h : New ys c) (hg : Grows [] c c₁) : New ys c₁ :=
  @right _ _ [] _ h hg

end Context.New

namespace Recorded

variable {c c₁ c₂ : Context} {xs ys : List ExprId} {l l₁ l₂ : List (Site × Mark)}

theorem nil : Recorded xs [] c := fun _ _ _ h => absurd h List.not_mem_nil

theorem cons {p : Site} {m : Mark} (hm : ∀ distances : Distances,
    (∀ id ∈ xs, distances[id]? = c.distances[id]?) → m.Legal distances p)
    (h : Recorded xs l c) : Recorded xs ((p, m) :: l) c := by
  intro distances hd x hx
  rcases List.mem_cons.mp hx with rfl | hx
  · exact hm distances hd
  · exact h distances hd x hx

theorem mono (h : Recorded xs l₁ c) (hids : ∀ id ∈ xs, id ∈ ys) (hl : ∀ x ∈ l₂, x ∈ l₁) :
    Recorded ys l₂ c :=
  fun distances hd x hx => h distances (fun id hid => hd id (hids id hid)) x (hl x hx)

theorem cons' {p : Site} {m : Mark} (hm : ∀ distances, m.Legal distances p)
    (h : Recorded xs l c) : Recorded xs ((p, m) :: l) c :=
  h.cons fun distances _ => hm distances

theorem step (h : Recorded xs l c) (hg : Grows [] c c₁) : Recorded xs l c₁ := by
  intro distances hd
  refine h distances fun id hid => ?_
  rw [hd id hid, hg.distances id List.not_mem_nil]

theorem append (h₁ : Recorded xs l₁ c₁) (h₂ : Recorded ys l₂ c₂) (hn : New (xs ++ ys) c)
    (hg : Grows ys c₁ c₂) : Recorded (xs ++ ys) (l₁ ++ l₂) c₂ := by
  intro distances hd x hx
  rcases List.mem_append.mp hx with hx | hx
  · refine h₁ distances (fun id hid => ?_) x hx
    rw [hd id (List.mem_append_left ys hid)]
    exact hg.distances id fun hy => hn.disjoint id hy hid
  · exact h₂ distances (fun id hid => hd id (List.mem_append_right xs hid)) x hx

end Recorded

/-! ## Uses -/

section Uses

variable {c : Context} {p : Site}

/-- What is recorded for a use is what its site says. -/
theorem Context.Fits.use_distance (h : c.Fits p) {use : Occurrence} (hn : New [use.id] c) :
    (c.use use).distances[use.id]? = p.target? use.name.lexeme := by
  have hf := h.find?_eq use.name.lexeme
  rw [use_distances]
  cases hfind : find? use.name.lexeme c.scopes with
  | none =>
    rw [hfind] at hf
    rw [← hf]
    exact hn.unknown use.id List.mem_cons_self
  | some found =>
    rw [hfind] at hf
    rw [← hf]
    simp

theorem Site.target?_eq {name : String} (h : p.opening ≠ some name) :
    p.target? name = p.distance? name :=
  if_neg h

theorem Context.Fits.keyword_distance (h : c.Fits p) {keyword : Occurrence} {k : Keyword}
    (hk : keyword.name.Spells k) (hn : New [keyword.id] c) {distances : Distances}
    (hd : ∀ id ∈ [keyword.id], distances[id]? = (c.use keyword).distances[id]?) :
    distances[keyword.id]? = p.distance? k.spelling := by
  rw [hd keyword.id List.mem_cons_self, h.use_distance hn, hk.lexeme]
  exact Site.target?_eq fun ho => h.opening _ ho k rfl

end Uses

/-! ## Expressions -/

mutual

theorem Expr.recorded_resolve {c : Context} {p : Site} : (e : Expr) → e.Regular → c.Fits p →
    New e.ids c → (e.resolve c).complaints = [] → Recorded e.ids (e.sites p) (e.resolve c)
  | .literal _, _, _, _, _ => .nil
  | .grouping inner, .grouping hr, hf, hn, hq => inner.recorded_resolve hr hf hn hq
  | .unary _ _ operand, .unary hr, hf, hn, hq => operand.recorded_resolve hr hf hn hq
  | .binary left _ _ right, .binary hl hr, hf, hn, hq => by
    have hg := right.grows_resolve (left.resolve c)
    have h₁ := left.recorded_resolve hl hf hn.left (hg.quiet hq)
    have h₂ := right.recorded_resolve hr (hf.alike (left.alike_resolve c))
      (hn.right (left.grows_resolve c)) hq
    rw [Expr.sites, Expr.marks, Site.mark, List.map_append]
    exact h₁.append h₂ hn hg
  | .logical left _ _ right, .logical hl hr, hf, hn, hq => by
    have hg := right.grows_resolve (left.resolve c)
    have h₁ := left.recorded_resolve hl hf hn.left (hg.quiet hq)
    have h₂ := right.recorded_resolve hr (hf.alike (left.alike_resolve c))
      (hn.right (left.grows_resolve c)) hq
    rw [Expr.sites, Expr.marks, Site.mark, List.map_append]
    exact h₁.append h₂ hn hg
  | .variable use, .variable _, hf, hn, hq => by
    rw [Expr.resolve] at hq ⊢
    have hread := check_complaints ((grows_use use).quiet hq)
    rw [hread, check_false]
    rw [beq_eq_false_iff_ne, ne_eq, hf.innermost?_eq] at hread
    refine Recorded.cons (fun distances hd => ?_) .nil
    show distances[use.id]? = _
    rw [hd use.id List.mem_cons_self, hf.use_distance hn, Site.target?_eq hread]
  | .assign target value, .assign ht hv, hf, hn, hq => by
    have hg := grows_use (c := value.resolve c) target
    have hn' := hn.perm (List.perm_append_singleton target.id value.ids).symm
    have h₁ := value.recorded_resolve hv hf hn'.left (hg.quiet hq)
    have hf' := hf.alike (value.alike_resolve c)
    have h₂ : Recorded [target.id] [(p, .write target), (p, .name target.name)]
        ((value.resolve c).use target) := by
      refine Recorded.cons (fun distances hd => ?_) (.cons' (fun _ => ht.lexeme_ne) .nil)
      show distances[target.id]? = _
      rw [hd target.id List.mem_cons_self]
      exact hf'.use_distance (hn'.right (value.grows_resolve c))
    refine (h₁.append h₂ hn' hg).mono (fun id hid => ?_) fun x hx => ?_
    · exact (List.perm_append_singleton target.id value.ids).mem_iff.mp hid
    · rw [Expr.sites, Expr.marks, Site.mark, List.map_cons, List.map_cons] at hx
      rcases List.mem_cons.mp hx with rfl | hx
      · simp
      · rcases List.mem_cons.mp hx with rfl | hx
        · simp
        · exact List.mem_append_left _ hx
  | .call callee arguments _, .call hc ha, hf, hn, hq => by
    have hg := Expr.grows_resolveAll (callee.resolve c) arguments
    have h₁ := callee.recorded_resolve hc hf hn.left (hg.quiet hq)
    have h₂ := Expr.recorded_resolveAll arguments ha (hf.alike (callee.alike_resolve c))
      (hn.right (callee.grows_resolve c)) hq
    rw [Expr.sites, Expr.marks, Site.mark, List.map_append]
    exact h₁.append h₂ hn hg
  | .get object _, .get hr _, hf, hn, hq => object.recorded_resolve hr hf hn hq
  | .set object _ value, .set ho _ hv, hf, hn, hq => by
    have hg := value.grows_resolve (object.resolve c)
    have h₁ := object.recorded_resolve ho hf hn.left (hg.quiet hq)
    have h₂ := value.recorded_resolve hv (hf.alike (object.alike_resolve c))
      (hn.right (object.grows_resolve c)) hq
    rw [Expr.sites, Expr.marks, Site.mark, List.map_append]
    exact h₁.append h₂ hn hg
  | .this keyword, .this hk, hf, hn, hq => by
    rw [Expr.resolve] at hq ⊢
    cases hc : c.classKind with
    | none =>
      rw [hc] at hq
      exact absurd hq (List.cons_ne_nil _ _)
    | plain | subclass =>
      refine Recorded.cons (fun distances hd => ?_) .nil
      show distances[keyword.id]? = _
      rw [hf.keyword_distance hk hn hd, hk.lexeme]
  | .super keyword _, .super hk _, hf, hn, hq => by
    rw [Expr.resolve] at hq ⊢
    cases hc : c.classKind with
    | none | plain =>
      rw [hc] at hq
      exact absurd hq (List.cons_ne_nil _ _)
    | subclass =>
      obtain ⟨d, hthis, hsuper⟩ := hf.dispatches (hf.classKind ▸ hc)
      refine Recorded.cons (fun distances hd => ?_) (.cons (fun distances hd => ?_) .nil)
      · show distances[keyword.id]? = _
        rw [hf.keyword_distance hk hn hd, hk.lexeme]
      · exact ⟨d, hthis, (hf.keyword_distance hk hn hd).trans hsuper, hsuper, hk.lexeme⟩

theorem Expr.recorded_resolveAll {c : Context} {p : Site} : (es : List Expr) →
    (∀ e ∈ es, e.Regular) → c.Fits p → New (Expr.idsAll es) c →
    (Expr.resolveAll c es).complaints = [] →
    Recorded (Expr.idsAll es) (p.mark (Expr.marksAll es)) (Expr.resolveAll c es)
  | [], _, _, _, _ => .nil
  | e :: rest, hr, hf, hn, hq => by
    have hg := Expr.grows_resolveAll (e.resolve c) rest
    have h₁ := e.recorded_resolve (hr e List.mem_cons_self) hf hn.left (hg.quiet hq)
    have h₂ := Expr.recorded_resolveAll rest (fun f hf => hr f (List.mem_cons_of_mem e hf))
      (hf.alike (e.alike_resolve c)) (hn.right (e.grows_resolve c)) hq
    rw [Expr.marksAll, Site.mark, List.map_append]
    exact h₁.append h₂ hn hg

end

theorem Expr.recorded_resolveOption {c : Context} {p : Site} (e : Option Expr)
    (hr : ∀ x ∈ e, Expr.Regular x) (hf : c.Fits p) (hn : New (Expr.idsOption e) c)
    (hq : (Expr.resolveOption c e).complaints = []) :
    Recorded (Expr.idsOption e) (Expr.sitesOption p e) (Expr.resolveOption c e) := by
  cases e with
  | none => exact .nil
  | some e => exact e.recorded_resolve (hr e rfl) hf hn hq

/-! ## Classes -/

section Classes

variable {c c' : Context} {p q : Site} {name : Token} {methods : List Function} {span : Position}

/-- The scope that binds a word of the language. -/
def wordScope (k : Keyword) : ScopeNames := .insert .empty k.spelling .implicit

theorem fits_wordScope (k : Keyword) (region : Region) :
    ScopeNames.Fits none (wordScope k) ⟨region, [k.spelling]⟩ :=
  (ScopeNames.Fits.empty region).insert_bound (fun _ h => by cases h) (by decide)

theorem Context.Settled.plain (h : c.Settled p) :
    { c with classKind := .plain }.Settled { p with classKind := .plain } where
  scopes := h.scopes
  function := h.function
  classKind := rfl
  loopDepth := h.loopDepth
  dispatches := fun hs => by cases hs
  opening := h.opening
  closed := h.closed

theorem Site.declare_classKind (p : Site) (name : String) (kind : ClassKind) :
    { p with classKind := kind }.declare name = { p.declare name with classKind := kind } := by
  obtain ⟨frames, _, _, _, _⟩ := p
  cases frames <;> rfl

theorem Context.use_classKind (c : Context) (kind : ClassKind) (use : Occurrence) :
    ({ c with classKind := kind } : Context).use use = { c.use use with classKind := kind } := by
  obtain ⟨scopes, _, _, _, _, _, _⟩ := c
  simp only [Context.use]
  cases find? use.name.lexeme scopes with
  | none => rfl
  | some found =>
    obtain ⟨distance, binding⟩ := found
    cases binding <;> rfl

/-- Behind the name of a class, in front of its superclass. -/
def Context.className (c : Context) (name : Token) : Context :=
  (({ c with classKind := .plain } : Context).declare name).define name .class

theorem Context.enterClass_none : c.enterClass name none =
    { c.className name with scopes := wordScope .this :: (c.className name).scopes } := rfl

theorem Context.enterClass_some {use : Occurrence} : c.enterClass name (some use) =
    { (c.className name).enterSuperclass name use with
      scopes := wordScope .this :: ((c.className name).enterSuperclass name use).scopes } := rfl

/-- A superclass is read as if the class were no subclass. -/
theorem Context.enterSuperclass_eq {use : Occurrence}
    (hq : (c.enterSuperclass name use).complaints = []) :
    (use.name.lexeme == name.lexeme) = false ∧ ((Expr.variable use).resolve c).complaints = [] ∧
      c.enterSuperclass name use =
        { (Expr.variable use).resolve c with
          classKind := .subclass
          scopes := wordScope .super :: c.scopes } := by
  have hdef : c.enterSuperclass name use =
      ((Expr.variable use).resolve
        { c.check (use.name.lexeme == name.lexeme) .inheritsFromItself use.name with
          classKind := .subclass }).openScope.bind Keyword.super.spelling .implicit := rfl
  rw [hdef] at hq ⊢
  have hread := check_complaints
    ((grows_use use).quiet ((grows_openScope.before (grows_bind _ _)).quiet hq))
  have hself : (use.name.lexeme == name.lexeme) = false := by
    have hq' := (Expr.grows_resolve _ _).quiet ((grows_openScope.before (grows_bind _ _)).quiet hq)
    exact check_complaints (show (c.check _ .inheritsFromItself use.name).complaints = [] from hq')
  rw [hself, check_false] at hq hread ⊢
  have hread' : (c.innermost? use.name.lexeme == some .uninitialized) = false := hread
  have hvar : (Expr.variable use).resolve c = c.use use := by
    rw [Expr.resolve, hread', check_false]
  have hvar' : (Expr.variable use).resolve { c with classKind := .subclass } =
      { c.use use with classKind := .subclass } := by
    rw [Expr.resolve, hread, check_false, use_classKind]
  rw [hvar'] at hq ⊢
  rw [hvar]
  refine ⟨rfl, hq, ?_⟩
  have hscopes : (c.use use).scopes = c.scopes := (alike_use use).scopes
  rw [← hscopes]
  rfl

theorem Context.Settled.className (h : c.Settled p) (hname : name.Names)
    (hq : (c.className name).complaints = []) :
    (c.className name).Settled { p.declare name.lexeme with classKind := .plain } := by
  have hs := h.plain.introduce hname .class ((grows_define name .class).quiet hq)
  rw [Site.declare_classKind] at hs
  exact hs

theorem Context.Settled.enterClass (h : c.Settled p) (hname : name.Names)
    (hq : (c.enterClass name none).complaints = []) :
    (c.enterClass name none).Settled (p.enterClass ⟨name, none, methods, span⟩) := by
  rw [enterClass_none] at hq ⊢
  have hs := h.className hname hq
  exact {
    scopes := hs.closed ▸ .cons (fits_wordScope .this _) hs.matchesOuter
    function := hs.function
    classKind := hs.classKind
    loopDepth := hs.loopDepth
    dispatches := fun hk => by cases hk
    opening := hs.opening
    closed := hs.closed }

theorem Context.Settled.enterSubclass (h : c.Settled p) (hname : name.Names) {use : Occurrence}
    (huse : use.name.Names) (hn : New [use.id] c) (hq : (c.enterClass name (some use)).complaints = []) :
    (c.enterClass name (some use)).Settled (p.enterClass ⟨name, some use, methods, span⟩) ∧
      Recorded [use.id] [(p, .read use)] (c.enterClass name (some use)) := by
  rw [enterClass_some] at hq ⊢
  obtain ⟨hself, hread, heq⟩ := enterSuperclass_eq hq
  have hs := h.className hname ((Expr.grows_resolve _ _).quiet hread)
  have hsuper := Matches.cons (fits_wordScope .super (.super ⟨name, some use, methods, span⟩))
    hs.matchesOuter
  have halike := Expr.alike_resolve (c.className name) (.variable use)
  have hc : Grows [] c (c.className name) :=
    (grows_classKind .plain).trans ((grows_declare name).trans (grows_define name .class))
  rw [heq]
  refine ⟨?_, ?_⟩
  · exact {
      scopes := hs.closed ▸ .cons (fits_wordScope .this _) (.some hsuper)
      function := halike.function.trans hs.function
      classKind := rfl
      loopDepth := halike.loopDepth.trans hs.loopDepth
      dispatches := fun _ => ⟨0, rfl, rfl⟩
      opening := hs.opening
      closed := hs.closed }
  · have hr := Expr.recorded_resolve (.variable use) (.variable huse) hs.toFits (hn.step hc) hread
    refine Recorded.cons (fun distances hd => ?_) .nil
    have hne : name.lexeme ≠ use.name.lexeme := fun he => by simp [he] at hself
    have hlegal := hr distances hd _ List.mem_cons_self
    exact hlegal.trans (Site.distance?_declare p hne)

theorem Context.Settled.leaveClass (h : c.Settled p) (hname : name.Names)
    {superclass : Option Occurrence} (hq : c'.Settled q)
    (hb : (p.enterClass ⟨name, superclass, methods, span⟩).Behind q) :
    (c'.leaveClass superclass c).Settled (p.declare name.lexeme) := by
  obtain ⟨-, -, f, rest, -, hframes, -, -⟩ := h.scopes.cons_inv
  have ht := hq.scopes.tail
  rw [hb.outer] at ht
  have hbehind := Site.behind_declare (p := p) name.lexeme
  have houter : MatchesOuter (c'.leaveClass superclass c).scopes (p.declare name.lexeme).frames := by
    cases superclass with
    | none => exact ht
    | some use => exact Matches.tail (ht : MatchesOuter _ (_ :: _)).of_cons
  have hclosed : (p.declare name.lexeme).opening = none := hbehind.opening.trans h.closed
  refine ⟨⟨?_, ?_, ?_, ?_, h.dispatches.declare hname.lexeme_ne, ?_⟩, hclosed⟩
  · rw [hclosed]
    rw [Site.declare_eq hframes] at houter ⊢
    exact houter.of_cons
  · cases superclass <;> exact hq.function.trans hb.function
  · cases superclass <;> exact h.classKind.trans hbehind.classKind.symm
  · cases superclass <;> exact hq.loopDepth.trans hb.loopDepth
  · intro n hn
    rw [hclosed] at hn
    cases hn

end Classes

/-! ## Statements -/

mutual

theorem Stmt.recorded_resolve {c : Context} {p : Site} : (s : Stmt) → s.Regular → c.Settled p →
    New s.ids c → (s.resolve c).complaints = [] →
    (s.resolve c).Settled (p.after s) ∧ Recorded s.ids (s.sites p) (s.resolve c)
  | .expression e, .expression hr, hf, hn, hq => by
    refine ⟨hf.alike (e.alike_resolve c), ?_⟩
    rw [Stmt.sites]
    exact .cons' (fun _ => trivial) (e.recorded_resolve hr hf.toFits hn hq)
  | .print e, .print hr, hf, hn, hq => by
    refine ⟨hf.alike (e.alike_resolve c), ?_⟩
    rw [Stmt.sites]
    exact .cons' (fun _ => trivial) (e.recorded_resolve hr hf.toFits hn hq)
  | .var name initializer, .var hname hr, hf, hn, hq => by
    have hq' := (grows_define name .variable).quiet hq
    have hfits := hf.declare hname ((Expr.grows_resolveOption _ initializer).quiet hq')
    have hinit := Expr.recorded_resolveOption initializer hr hfits
      (hn.step (grows_declare name)) hq'
    refine ⟨(hfits.alike (Expr.alike_resolveOption _ initializer)).define hf.closed hname _, ?_⟩
    rw [Stmt.sites]
    exact .cons' (fun _ => trivial)
      (.cons' (fun _ => hname.lexeme_ne) (hinit.step (grows_define name .variable)))
  | .block body, .block hr, hf, hn, hq => by
    have hbody := Stmt.recorded_resolveAll body hr (hf.openScope (.block body))
      (hn.step grows_openScope) (grows_closeScope.quiet hq)
    refine ⟨hbody.1.closeScope hf (Site.behind_afterAll body), ?_⟩
    rw [Stmt.sites]
    exact .cons' (fun _ => trivial) (hbody.2.step grows_closeScope)
  | .ifElse condition thenBranch elseBranch, .ifElse hc ht hdt he hde, hf, hn, hq => by
    have hge := Stmt.grows_resolveOption (thenBranch.resolve (condition.resolve c)) elseBranch
    have hgt := thenBranch.grows_resolve (condition.resolve c)
    have h₁ := condition.recorded_resolve hc hf.toFits hn.left.left (hgt.quiet (hge.quiet hq))
    have h₂ := thenBranch.recorded_resolve ht (hf.alike (condition.alike_resolve c))
      (hn.left.right (condition.grows_resolve c)) (hge.quiet hq)
    rw [Site.after_of_not_declares hdt] at h₂
    have h₃ := Stmt.recorded_resolveOption elseBranch he h₂.1
      (hn.right ((condition.grows_resolve c).append hgt)) hq
    refine ⟨?_, ?_⟩
    · cases elseBranch with
      | none => exact h₃.1
      | some s =>
        have hs := h₃.1
        rw [Site.afterOption, Site.after_of_not_declares (hde s rfl)] at hs
        exact hs
    · rw [Stmt.sites]
      exact .cons' (fun _ => trivial) ((h₁.append h₂.2 hn.left hgt).append h₃.2 hn hge)
  | .whileLoop condition body, .whileLoop hc hb hdb, hf, hn, hq => by
    have hg := grows_enterLoop.before (body.grows_resolve (condition.resolve c).enterLoop)
    have hq' := grows_leaveLoop.quiet hq
    have h₁ := condition.recorded_resolve hc hf.toFits hn.left (hg.quiet hq')
    have h₂ := body.recorded_resolve hb (hf.alike (condition.alike_resolve c)).enterLoop
      ((hn.right (condition.grows_resolve c)).step grows_enterLoop) hq'
    rw [Site.after_of_not_declares hdb] at h₂
    refine ⟨h₂.1.leaveLoop, ?_⟩
    rw [Stmt.sites]
    exact .cons' (fun _ => trivial) ((h₁.append h₂.2 hn hg).step grows_leaveLoop)
  | .forLoop initializer condition increment body, .forLoop hi _ hc hs hb hdb, hf, hn, hq => by
    have hq₄ := grows_leaveLoop.quiet (grows_closeScope.quiet hq)
    have hg₄ := grows_enterLoop.before (body.grows_resolve (Expr.resolveOption
      (Expr.resolveOption (Stmt.resolveOption c.openScope initializer) condition)
      increment).enterLoop)
    have hq₃ := hg₄.quiet hq₄
    have hg₃ := Expr.grows_resolveOption
      (Expr.resolveOption (Stmt.resolveOption c.openScope initializer) condition) increment
    have hq₂ := hg₃.quiet hq₃
    have hg₂ := Expr.grows_resolveOption (Stmt.resolveOption c.openScope initializer) condition
    have hq₁ := hg₂.quiet hq₂
    have hg₁ := Stmt.grows_resolveOption c.openScope initializer
    have hn₀ := hn.step grows_openScope
    have h₁ := Stmt.recorded_resolveOption initializer hi
      (hf.openScope (.clauses initializer condition increment body)) hn₀.left.left.left hq₁
    have h₂ := Expr.recorded_resolveOption condition hc h₁.1.toFits
      (hn₀.left.left.right hg₁) hq₂
    have hs₂ := h₁.1.alike (Expr.alike_resolveOption _ condition)
    have h₃ := Expr.recorded_resolveOption increment hs hs₂.toFits
      (hn₀.left.right (hg₁.append hg₂)) hq₃
    have hs₃ := hs₂.alike (Expr.alike_resolveOption _ increment)
    have h₄ := body.recorded_resolve hb hs₃.enterLoop
      ((hn₀.right ((hg₁.append hg₂).append hg₃)).step grows_enterLoop) hq₄
    rw [Site.after_of_not_declares hdb] at h₄
    refine ⟨h₄.1.leaveLoop.closeScope hf (Site.behind_afterOption initializer), ?_⟩
    rw [Stmt.sites]
    have hall := ((h₁.2.append h₂ hn₀.left.left hg₂).append h₃ hn₀.left hg₃).append h₄.2 hn₀ hg₄
    exact .cons' (fun _ => trivial) ((hall.step grows_leaveLoop).step grows_closeScope)
  | .function declaration, .function hr, hf, hn, hq => by
    have hname : declaration.name.Names := by
      cases hr with
      | mk hname _ _ => exact hname
    have hg := declaration.grows_resolve .function
      ((c.declare declaration.name).define declaration.name .function)
    have hq' := (grows_define declaration.name .function).quiet (hg.quiet hq)
    have h := declaration.recorded_resolve .function hr (hf.introduce hname .function hq')
      ((hn.step (grows_declare declaration.name)).step (grows_define declaration.name .function))
      hq
    refine ⟨h.1, ?_⟩
    rw [Stmt.sites]
    exact .cons' (fun _ => trivial) (.cons' (fun _ => hname.lexeme_ne) h.2)
  | .class declaration, .class hr, hf, hn, hq => by
    have h := declaration.recorded_resolve hr hf hn hq
    refine ⟨h.1, ?_⟩
    rw [Stmt.sites]
    exact .cons' (fun _ => trivial) h.2
  | .return keyword value, .return hr, hf, hn, hq => by
    rw [Stmt.resolve] at hq ⊢
    have hq₂ := (Expr.grows_resolveOption _ value).quiet hq
    have hinit := check_complaints hq₂
    have hfun := check_complaints ((grows_check _ _ keyword).quiet hq₂)
    rw [hfun, check_false] at hinit
    simp only [hfun, check_false, hinit] at hq ⊢
    have h := Expr.recorded_resolveOption value hr hf.toFits hn hq
    refine ⟨hf.alike (Expr.alike_resolveOption c value), ?_⟩
    rw [Stmt.sites]
    refine .cons' (fun _ => trivial) (.cons' (fun _ => ?_) h)
    show p.function ≠ .none
    rw [← hf.function]
    simpa using hfun
  | .break keyword, .break, hf, hn, hq => by
    rw [Stmt.resolve] at hq ⊢
    have hloop := check_complaints hq
    rw [hloop, check_false]
    refine ⟨hf, ?_⟩
    rw [Stmt.sites]
    refine .cons' (fun _ => trivial) (.cons' (fun _ => ?_) .nil)
    show p.loopDepth ≠ 0
    rw [← hf.loopDepth]
    simpa using hloop
  | .continue keyword, .continue, hf, hn, hq => by
    rw [Stmt.resolve] at hq ⊢
    have hloop := check_complaints hq
    rw [hloop, check_false]
    refine ⟨hf, ?_⟩
    rw [Stmt.sites]
    refine .cons' (fun _ => trivial) (.cons' (fun _ => ?_) .nil)
    show p.loopDepth ≠ 0
    rw [← hf.loopDepth]
    simpa using hloop

theorem Stmt.recorded_resolveAll {c : Context} {p : Site} : (ss : List Stmt) →
    (∀ s ∈ ss, s.Regular) → c.Settled p → New (Stmt.idsAll ss) c →
    (Stmt.resolveAll c ss).complaints = [] →
    (Stmt.resolveAll c ss).Settled (p.afterAll ss) ∧
      Recorded (Stmt.idsAll ss) (Stmt.sitesAll p ss) (Stmt.resolveAll c ss)
  | [], _, hf, _, _ => ⟨hf, .nil⟩
  | s :: rest, hr, hf, hn, hq => by
    have hg := Stmt.grows_resolveAll (s.resolve c) rest
    have h₁ := s.recorded_resolve (hr s List.mem_cons_self) hf hn.left (hg.quiet hq)
    have h₂ := Stmt.recorded_resolveAll rest (fun t ht => hr t (List.mem_cons_of_mem s ht)) h₁.1
      (hn.right (s.grows_resolve c)) hq
    exact ⟨h₂.1, h₁.2.append h₂.2 hn hg⟩

theorem Stmt.recorded_resolveOption {c : Context} {p : Site} : (s : Option Stmt) →
    (∀ x ∈ s, Stmt.Regular x) → c.Settled p → New (Stmt.idsOption s) c →
    (Stmt.resolveOption c s).complaints = [] →
    (Stmt.resolveOption c s).Settled (p.afterOption s) ∧
      Recorded (Stmt.idsOption s) (Stmt.sitesOption p s) (Stmt.resolveOption c s)
  | none, _, hf, _, _ => ⟨hf, .nil⟩
  | some s, hr, hf, hn, hq => s.recorded_resolve (hr s rfl) hf hn hq

theorem Function.recorded_resolve {c : Context} {p : Site} (kind : FunctionKind) :
    (f : Function) → f.Regular → c.Settled p → New f.ids c → (f.resolve kind c).complaints = [] →
    (f.resolve kind c).Settled p ∧ Recorded f.ids (f.sites kind p) (f.resolve kind c)
  | ⟨name, params, body, span⟩, .mk _ hp hb, hf, hn, hq => by
    have hq₂ := (grows_leaveFunction c).quiet hq
    have hq₁ := (Stmt.grows_resolveAll _ body).quiet hq₂
    have hg₁ := (grows_enterFunction kind).trans (grows_parameters params (c.enterFunction kind))
    have hs : (params.foldl parameter (c.enterFunction kind)).Settled
        (p.enterFunction kind ⟨name, params, body, span⟩) :=
      Settled.parameters (p := p.enterFunction kind ⟨name, params, body, span⟩) params hp
        (hf.enterFunction kind ⟨name, params, body, span⟩) hq₁
    have h := Stmt.recorded_resolveAll body hb hs (hn.step hg₁) hq₂
    refine ⟨h.1.leaveFunction hf (Site.behind_afterAll body), ?_⟩
    rw [Function.sites]
    refine Recorded.step (fun distances hd x hx => ?_) (grows_leaveFunction c)
    rcases List.mem_append.mp hx with hx | hx
    · obtain ⟨m, hm, rfl⟩ := List.mem_map.mp hx
      obtain ⟨t, ht, rfl⟩ := List.mem_map.mp hm
      exact (hp t ht).lexeme_ne
    · exact h.2 distances hd x hx

theorem Function.recorded_resolveMethods {c : Context} {p : Site} : (fs : List Function) →
    (∀ f ∈ fs, f.Regular) → c.Settled p → New (Function.idsAll fs) c →
    (Function.resolveMethods c fs).complaints = [] →
    (Function.resolveMethods c fs).Settled p ∧
      Recorded (Function.idsAll fs) (Function.sitesMethods p fs) (Function.resolveMethods c fs)
  | [], _, hf, _, _ => ⟨hf, .nil⟩
  | f :: rest, hr, hf, hn, hq => by
    have hg := Function.grows_resolveMethods (f.resolve f.methodKind c) rest
    have h₁ := f.recorded_resolve f.methodKind (hr f List.mem_cons_self) hf hn.left (hg.quiet hq)
    have h₂ := Function.recorded_resolveMethods rest
      (fun g hg => hr g (List.mem_cons_of_mem f hg)) h₁.1
      (hn.right (f.grows_resolve f.methodKind c)) hq
    exact ⟨h₂.1, h₁.2.append h₂.2 hn hg⟩

theorem Class.recorded_resolve {c : Context} {p : Site} : (k : Class) → k.Regular → c.Settled p →
    New k.ids c → (k.resolve c).complaints = [] →
    (k.resolve c).Settled (p.after (.class k)) ∧ Recorded k.ids (k.sites p) (k.resolve c)
  | ⟨name, superclass, methods, span⟩, .mk hname hu hm, hf, hn, hq => by
    have hq₂ := (grows_leaveClass superclass c).quiet hq
    have hg₂ := Function.grows_resolveMethods (c.enterClass name superclass) methods
    have hq₁ := hg₂.quiet hq₂
    have h₁ : (c.enterClass name superclass).Settled
          (p.enterClass ⟨name, superclass, methods, span⟩) ∧
        Recorded (Occurrence.idsOption superclass) (Occurrence.sitesOption p superclass)
          (c.enterClass name superclass) := by
      cases superclass with
      | none => exact ⟨hf.enterClass hname hq₁, .nil⟩
      | some use => exact hf.enterSubclass hname (hu use rfl) hn.left hq₁
    have h₂ := Function.recorded_resolveMethods methods hm h₁.1
      (hn.right (grows_enterClass name superclass)) hq₂
    refine ⟨hf.leaveClass hname h₂.1 .refl, ?_⟩
    rw [Class.sites]
    refine .cons' (fun _ => hname.lexeme_ne) ?_
    exact (h₁.2.append h₂.2 hn hg₂).step (grows_leaveClass superclass c)

end

/-! ## Programs -/

/-- The resolver finds nothing to complain about in a program without static errors. -/
theorem complaints_of_resolve {program : List Stmt} (h : (resolve program).hasError = false) :
    (Stmt.resolveAll .start program).complaints = [] := by
  have herr := (Stmt.grows_resolveAll .start program).errors fun _ hx => absurd hx List.not_mem_nil
  unfold resolve Resolution.hasError at h
  rw [List.any_append, Bool.or_eq_false_iff, List.any_reverse, List.any_eq_false] at h
  rw [List.eq_nil_iff_forall_not_mem]
  exact fun x hx => h.1 x hx (herr x hx)

/-- Only occurrences of the program have a distance. -/
theorem distances_of_resolve (program : List Stmt) {id : ExprId}
    (hid : id ∉ Stmt.idsAll program) : (resolve program).distances[id]? = none :=
  (Stmt.grows_resolveAll .start program).distances id hid

/-- **A program without static errors agrees with its sites.** -/
theorem legal_of_resolve {program : List Stmt} (hr : ∀ s ∈ program, s.Regular)
    (hn : (Stmt.idsAll program).Nodup) (h : (resolve program).hasError = false)
    {distances : Distances}
    (hd : ∀ id ∈ Stmt.idsAll program, distances[id]? = (resolve program).distances[id]?) :
    ∀ x ∈ programSites program, x.2.Legal distances x.1 :=
  (Stmt.recorded_resolveAll program hr settled_start ⟨hn, fun _ _ => rfl⟩
    (complaints_of_resolve h)).2 distances hd

end Lox
