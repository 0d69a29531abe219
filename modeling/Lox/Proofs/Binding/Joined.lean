import Lox.Proofs.Binding.Fewer

/-!
# The sites of a program behind another one

A program that stands behind another one has the sites that it has alone, but that the names of the
first one are bound in the outermost scope.

* `Region.relocate`, `Mark.relocate`: scopes and marks of the relocated text;
* `Site.joined`: a site behind a program that binds certain names, `Site.distance?_joined`: the
  distances from there;
* `Stmt.sites_relocate`, …, **`programSites_append`**: the sites of two programs in one;
* `Mark.Reached`: a table leads from a mark to what it stands for alone, or to the outermost scope,
  **`reached_of_append`**: so does the table of both programs from the marks of the second one.
-/

namespace Lox

/-! ## Scopes and marks of the relocated text -/

/-- The scope of the relocated text. -/
def Region.relocate (r : Relocation) : Region → Region
  | .top => .top
  | .block body => .block (Stmt.relocateAll r body)
  | .clauses initializer condition increment body =>
    .clauses (Stmt.relocateOption r initializer) (condition.map (Expr.relocate r))
      (increment.map (Expr.relocate r)) (body.relocate r)
  | .function declaration => .function (declaration.relocate r)
  | .this declaration => .this (declaration.relocate r)
  | .super declaration => .super (declaration.relocate r)

/-- The mark of the relocated text. -/
def Mark.relocate (r : Relocation) : Mark → Mark
  | .statement s => .statement (s.relocate r)
  | .read use => .read (use.relocate r)
  | .write target => .write (target.relocate r)
  | .super keyword => .super (keyword.relocate r)
  | .name token => .name (token.relocate r)
  | .return => .return
  | .break => .break
  | .continue => .continue

/-- The frames of the relocated text, where further names are bound in the outermost scope. -/
def Frame.joined (r : Relocation) (names : List String) : List Frame → List Frame
  | [] => []
  | [f] => [⟨f.region.relocate r, f.names ++ names⟩]
  | f :: outer => ⟨f.region.relocate r, f.names⟩ :: Frame.joined r names outer

namespace Site

variable (r : Relocation) (names : List String)

/-- The place in the relocated text, behind a program that binds the names. -/
def joined (p : Site) : Site := { p with frames := Frame.joined r names p.frames }

theorem joined_declare (p : Site) (name : String) :
    (p.declare name).joined r names = (p.joined r names).declare name := by
  obtain ⟨frames, _, _, _, _⟩ := p
  match frames with
  | [] => rfl
  | [_] => rfl
  | _ :: _ :: _ => rfl

theorem joined_enter {p : Site} (hp : p.frames ≠ []) (region : Region) (bound : List String) :
    (p.enter region bound).joined r names =
      (p.joined r names).enter (region.relocate r) bound := by
  obtain ⟨frames, _, _, _, _⟩ := p
  match frames with
  | _ :: _ => rfl

theorem joined_enterFunction {p : Site} (hp : p.frames ≠ []) (kind : FunctionKind) (f : Function) :
    (p.enterFunction kind f).joined r names = (p.joined r names).enterFunction kind (f.relocate r) := by
  unfold enterFunction
  rw [Function.params_relocate, List.map_map]
  exact congrArg (fun q : Site => { q with function := kind, loopDepth := 0 })
    (joined_enter r names hp (.function f) _)

theorem declare_frames_ne_nil {p : Site} (hp : p.frames ≠ []) (name : String) :
    (p.declare name).frames ≠ [] := by
  obtain ⟨frames, _, _, _, _⟩ := p
  match frames with
  | _ :: _ => exact List.cons_ne_nil _ _

theorem after_frames_ne_nil {p : Site} (hp : p.frames ≠ []) (s : Stmt) : (p.after s).frames ≠ [] := by
  unfold after
  cases s.declared? with
  | none => exact hp
  | some name => exact declare_frames_ne_nil hp _

theorem afterOption_frames_ne_nil {p : Site} (hp : p.frames ≠ []) (s : Option Stmt) :
    (p.afterOption s).frames ≠ [] := by
  cases s with
  | none => exact hp
  | some s => exact after_frames_ne_nil hp s

theorem declared?_relocate (s : Stmt) : (s.relocate r).declared? = s.declared?.map (Token.relocate r) := by
  cases s <;> simp [Stmt.relocate, Stmt.declared?]

theorem joined_after (p : Site) (s : Stmt) :
    (p.after s).joined r names = (p.joined r names).after (s.relocate r) := by
  unfold after
  rw [declared?_relocate]
  cases s.declared? with
  | none => rfl
  | some name => exact joined_declare r names p name.lexeme

theorem joined_afterOption (p : Site) (s : Option Stmt) :
    (p.afterOption s).joined r names = (p.joined r names).afterOption (Stmt.relocateOption r s) := by
  cases s with
  | none => rfl
  | some s => exact joined_after r names p s

theorem enterClass_frames_ne_nil (p : Site) (c : Class) : (p.enterClass c).frames ≠ [] :=
  List.cons_ne_nil _ _

theorem joined_enterClass {p : Site} (hp : p.frames ≠ []) (c : Class) :
    (p.enterClass c).joined r names = (p.joined r names).enterClass (c.relocate r) := by
  have hd := declare_frames_ne_nil hp c.name.lexeme
  unfold enterClass enterSuper
  rw [Class.superclass_relocate, Class.name_relocate, Token.lexeme_relocate, ← joined_declare]
  cases c.superclass with
  | none => exact joined_enter r names (p := { p.declare c.name.lexeme with classKind := .plain }) hd _ _
  | some use =>
    rw [joined_enter r names (List.cons_ne_nil _ _)]
    exact congrArg (fun q : Site => ({ q with classKind := .subclass } : Site).enter _ _)
      (joined_enter r names hd (.super c) _)

theorem findIdx?_joined (name : String) (f : Frame) (outer : List Frame) :
    (Frame.joined r names (f :: outer)).findIdx? (fun g => g.names.contains name) =
      ((f :: outer).findIdx? fun g => g.names.contains name).or
        (if names.contains name then some outer.length else none) := by
  induction outer generalizing f with
  | nil =>
    rw [Frame.joined, List.findIdx?_cons, List.contains_append, List.findIdx?_cons]
    cases f.names.contains name <;> simp
  | cons g outer ih =>
    rw [Frame.joined, List.findIdx?_cons, ih, List.findIdx?_cons (x := f)]
    · cases f.names.contains name with
      | true => rfl
      | false =>
        cases (g :: outer).findIdx? (fun g => g.names.contains name) with
        | some d => rfl
        | none => cases names.contains name <;> rfl
    · exact nofun

/-- **A name that is found in the text alone is found at the same distance. Another one is found in
the outermost scope, if it is bound there.** -/
theorem distance?_joined {p : Site} (hp : p.frames ≠ []) (name : String) :
    (p.joined r names).distance? name = (p.distance? name).or
      (if names.contains name then some (p.frames.length - 1) else none) := by
  obtain ⟨frames, _, _, _, _⟩ := p
  match frames with
  | f :: outer => exact findIdx?_joined r names name f outer

end Site

/-! ## The marks -/

section Marks

variable (r : Relocation) (names : List String)

/-- The mark at its place in the relocated text. -/
def Mark.joined (x : Site × Mark) : Site × Mark := (x.1.joined r names, x.2.relocate r)

mutual

theorem Expr.marks_relocate : (e : Expr) → (e.relocate r).marks = e.marks.map (Mark.relocate r)
  | .literal _ => rfl
  | .grouping inner => inner.marks_relocate
  | .unary _ _ operand => operand.marks_relocate
  | .binary left _ _ right | .logical left _ _ right => by
    simp only [Expr.relocate, Expr.marks, List.map_append, left.marks_relocate, right.marks_relocate]
  | .variable _ => rfl
  | .assign target value => by
    simp only [Expr.relocate, Expr.marks, List.map_cons, value.marks_relocate]
    rfl
  | .call callee arguments _ => by
    simp only [Expr.relocate, Expr.marks, List.map_append, callee.marks_relocate,
      Expr.marksAll_relocate arguments]
  | .get object _ => object.marks_relocate
  | .set object _ value => by
    simp only [Expr.relocate, Expr.marks, List.map_append, object.marks_relocate, value.marks_relocate]
  | .this _ => rfl
  | .super _ _ => rfl

theorem Expr.marksAll_relocate :
    (es : List Expr) → Expr.marksAll (Expr.relocateAll r es) = (Expr.marksAll es).map (Mark.relocate r)
  | [] => rfl
  | e :: rest => by
    simp only [Expr.relocateAll, Expr.marksAll, List.map_append, e.marks_relocate,
      Expr.marksAll_relocate rest]

end

theorem Site.mark_joined (p : Site) (marks : List Mark) :
    (p.joined r names).mark (marks.map (Mark.relocate r)) = (p.mark marks).map (Mark.joined r names) := by
  simp only [Site.mark, List.map_map]
  rfl

theorem Expr.sites_relocate (p : Site) (e : Expr) :
    (e.relocate r).sites (p.joined r names) = (e.sites p).map (Mark.joined r names) := by
  rw [Expr.sites, Expr.marks_relocate, Site.mark_joined, Expr.sites]

theorem Expr.sitesOption_relocate (p : Site) (e : Option Expr) :
    Expr.sitesOption (p.joined r names) (e.map (Expr.relocate r)) =
      (Expr.sitesOption p e).map (Mark.joined r names) := by
  cases e with
  | none => rfl
  | some e => exact e.sites_relocate r names p

mutual

theorem Stmt.sites_relocate {p : Site} (hp : p.frames ≠ []) :
    (s : Stmt) → (s.relocate r).sites (p.joined r names) = (s.sites p).map (Mark.joined r names)
  | .expression e | .print e => by
    simp only [Stmt.relocate, Stmt.sites, List.map_cons, Expr.sites_relocate]
    rfl
  | .var name initializer => by
    have hinit := Expr.sitesOption_relocate r names (p.initializing name.lexeme) initializer
    simp only [Stmt.relocate, Stmt.sites, List.map_cons]
    exact congrArg (fun l => _ :: _ :: l) hinit
  | .block body => by
    have hbody := Stmt.sitesAll_relocate (p := p.enter (.block body) []) (List.cons_ne_nil _ _) body
    rw [Site.joined_enter r names hp] at hbody
    simp only [Stmt.relocate, Stmt.sites, List.map_cons]
    exact congrArg (_ :: ·) hbody
  | .ifElse condition thenBranch elseBranch => by
    simp only [Stmt.relocate, Stmt.sites, List.map_cons, List.map_append, Expr.sites_relocate,
      thenBranch.sites_relocate hp, Stmt.sitesOption_relocate hp elseBranch]
    rfl
  | .whileLoop condition body => by
    have hbody := body.sites_relocate (p := p.enterLoop) hp
    simp only [Stmt.relocate, Stmt.sites, List.map_cons, List.map_append, Expr.sites_relocate]
    exact congrArg (fun l => _ :: (_ ++ l)) hbody
  | .forLoop initializer condition increment body => by
    have hinner : (p.enter (.clauses initializer condition increment body) []).frames ≠ [] :=
      List.cons_ne_nil _ _
    have hbehind := Site.afterOption_frames_ne_nil hinner initializer
    have hinit := Stmt.sitesOption_relocate hinner initializer
    have hcondition := Expr.sitesOption_relocate r names
      ((p.enter (.clauses initializer condition increment body) []).afterOption initializer) condition
    have hincrement := Expr.sitesOption_relocate r names
      ((p.enter (.clauses initializer condition increment body) []).afterOption initializer) increment
    have hbody : (body.relocate r).sites (((p.enter (.clauses initializer condition increment body)
        []).afterOption initializer).joined r names).enterLoop = _ := body.sites_relocate
      (p := ((p.enter (.clauses initializer condition increment body) []).afterOption
        initializer).enterLoop) hbehind
    rw [Site.joined_afterOption, Site.joined_enter r names hp] at hcondition hincrement hbody
    rw [Site.joined_enter r names hp] at hinit
    simp only [Stmt.relocate, Stmt.sites, List.map_cons, List.map_append]
    rw [← hinit, ← hcondition, ← hincrement, ← hbody]
    rfl
  | .function declaration => by
    have hf := declaration.sites_relocate .function (Site.declare_frames_ne_nil hp declaration.name.lexeme)
    rw [Site.joined_declare] at hf
    simp only [Stmt.relocate, Stmt.sites, List.map_cons, Function.name_relocate]
    exact congrArg (fun l => _ :: _ :: l) hf
  | .class declaration => by
    simp only [Stmt.relocate, Stmt.sites, List.map_cons, declaration.sites_relocate hp]
    rfl
  | .return _ value => by
    simp only [Stmt.relocate, Stmt.sites, List.map_cons, Expr.sitesOption_relocate]
    rfl
  | .break _ | .continue _ => rfl

theorem Stmt.sitesAll_relocate {p : Site} (hp : p.frames ≠ []) :
    (ss : List Stmt) → Stmt.sitesAll (p.joined r names) (Stmt.relocateAll r ss) =
      (Stmt.sitesAll p ss).map (Mark.joined r names)
  | [] => rfl
  | s :: rest => by
    rw [Stmt.relocateAll, Stmt.sitesAll, s.sites_relocate hp, ← Site.joined_after,
      Stmt.sitesAll_relocate (Site.after_frames_ne_nil hp s) rest, Stmt.sitesAll, List.map_append]

theorem Stmt.sitesOption_relocate {p : Site} (hp : p.frames ≠ []) :
    (s : Option Stmt) → Stmt.sitesOption (p.joined r names) (Stmt.relocateOption r s) =
      (Stmt.sitesOption p s).map (Mark.joined r names)
  | none => rfl
  | some s => s.sites_relocate hp

theorem Function.sites_relocate (kind : FunctionKind) {p : Site} (hp : p.frames ≠ []) :
    (f : Function) →
      (f.relocate r).sites kind (p.joined r names) = (f.sites kind p).map (Mark.joined r names)
  | ⟨name, params, body, span⟩ => by
    have hbody := Stmt.sitesAll_relocate (p := p.enterFunction kind ⟨name, params, body, span⟩)
      (List.cons_ne_nil _ _) body
    have hparams := Site.mark_joined r names (p.enterFunction kind ⟨name, params, body, span⟩)
      (params.map .name)
    rw [Site.joined_enterFunction r names hp] at hbody hparams
    rw [List.map_map] at hparams
    simp only [Function.relocate, Function.sites, List.map_append, ← hparams, ← hbody, List.map_map]
    rfl

theorem Function.sitesMethods_relocate {p : Site} (hp : p.frames ≠ []) :
    (fs : List Function) → Function.sitesMethods (p.joined r names) (Function.relocateAll r fs) =
      (Function.sitesMethods p fs).map (Mark.joined r names)
  | [] => rfl
  | f :: rest => by
    have hkind : (f.relocate r).methodKind = f.methodKind := by
      rw [Function.methodKind, Function.isInitializer_relocate, Function.methodKind]
    simp only [Function.relocateAll, Function.sitesMethods, List.map_append, hkind,
      f.sites_relocate f.methodKind hp, Function.sitesMethods_relocate hp rest]

theorem Class.sites_relocate {p : Site} (hp : p.frames ≠ []) :
    (c : Class) → (c.relocate r).sites (p.joined r names) = (c.sites p).map (Mark.joined r names)
  | ⟨name, superclass, methods, span⟩ => by
    have hmethods := Function.sitesMethods_relocate
      (Site.enterClass_frames_ne_nil p ⟨name, superclass, methods, span⟩) methods
    rw [Site.joined_enterClass r names hp] at hmethods
    have hsuper : Occurrence.sitesOption (p.joined r names) (superclass.map (Occurrence.relocate r)) =
        (Occurrence.sitesOption p superclass).map (Mark.joined r names) := by
      cases superclass <;> rfl
    simp only [Class.relocate, Class.sites, List.map_cons, List.map_append, hsuper, ← hmethods]
    rfl

end

end Marks

/-! ## Two programs -/

theorem Stmt.sitesAll_append (p : Site) (ss ts : List Stmt) :
    Stmt.sitesAll p (ss ++ ts) = Stmt.sitesAll p ss ++ Stmt.sitesAll (p.afterAll ss) ts := by
  induction ss generalizing p with
  | nil => rfl
  | cons s rest ih => rw [List.cons_append, sitesAll, ih, sitesAll, List.append_assoc]; rfl

/-- Behind a program there is the outermost scope alone, with the names of the program. -/
theorem Site.exists_names (r : Relocation) (program : List Stmt) (names : List String) :
    ∃ names', (Site.start.joined r names).afterAll program = Site.start.joined r names' := by
  induction program generalizing names with
  | nil => exact ⟨names, rfl⟩
  | cons s rest ih =>
    have hs : ∃ names', (Site.start.joined r names).after s = Site.start.joined r names' := by
      unfold Site.after
      cases s.declared? with
      | none => exact ⟨names, rfl⟩
      | some name => exact ⟨name.lexeme :: names, rfl⟩
    obtain ⟨names', hnames⟩ := hs
    rw [Site.afterAll, hnames]
    exact ih names'

/-- **The sites of two programs** are those of the first one and those of the second one alone, with
the names of the first one in the outermost scope. -/
theorem programSites_append (r : Relocation) (first second : List Stmt) :
    ∃ names, programSites (first ++ Stmt.relocateAll r second) =
      programSites first ++ (programSites second).map (Mark.joined r names) := by
  obtain ⟨names, hnames⟩ := Site.exists_names r first []
  refine ⟨names, ?_⟩
  have hstart : Site.start.afterAll first = Site.start.joined r names := hnames
  rw [programSites, Stmt.sitesAll_append, hstart,
    Stmt.sitesAll_relocate r names (List.cons_ne_nil _ _)]
  rfl

/-- The table leads from the mark to what it stands for at its site. A name that is not found there
may lead to the outermost scope. -/
def Mark.Reached (distances : Distances) (p : Site) : Mark → Prop
  | .read use => distances[use.id]? = p.distance? use.name.lexeme ∨
      p.distance? use.name.lexeme = none ∧ distances[use.id]? = some (p.frames.length - 1)
  | .write target => distances[target.id]? = p.target? target.name.lexeme ∨
      p.target? target.name.lexeme = none ∧ distances[target.id]? = some (p.frames.length - 1)
  | .super keyword => distances[keyword.id]? = p.distance? Keyword.super.spelling
  | _ => True

theorem Mark.Legal.reached {distances : Distances} {p : Site} {mark : Mark}
    (h : mark.Legal distances p) : mark.Reached distances p := by
  cases mark with
  | read use => exact .inl h
  | write target => exact .inl h
  | super keyword =>
    obtain ⟨d, -, hid, hsuper, -⟩ := h
    exact hid.trans hsuper.symm
  | _ => trivial

theorem Site.reached_of_distance {distances : Distances} {p : Site} {r : Relocation}
    {names : List String} {name : String} {id : ExprId}
    (h : distances[id]? = (p.joined r names).distance? name) :
    distances[id]? = p.distance? name ∨
      p.distance? name = none ∧ distances[id]? = some (p.frames.length - 1) := by
  by_cases hp : p.frames = []
  · unfold Site.joined Site.distance? at h
    unfold Site.distance?
    rw [hp] at h ⊢
    exact .inl h
  rw [Site.distance?_joined r names hp] at h
  cases hd : p.distance? name with
  | some d =>
    rw [hd] at h
    exact .inl h
  | none =>
    rw [hd, Option.none_or] at h
    split at h
    · exact .inr ⟨rfl, h⟩
    · exact .inl h

/-- What is legal behind another program, and alone with another table, is reached alone. -/
theorem Mark.Legal.reached_alone {distances known : Distances} {p : Site} {mark : Mark}
    {r : Relocation} {names : List String}
    (h : (mark.relocate r).Legal distances (p.joined r names)) (halone : mark.Legal known p) :
    mark.Reached distances p := by
  cases mark with
  | read use => exact Site.reached_of_distance h
  | write target =>
    have h' : distances[target.id]? = (p.joined r names).target? target.name.lexeme := h
    show distances[target.id]? = p.target? _ ∨ p.target? _ = none ∧ _
    unfold Site.target? at h' ⊢
    by_cases ho : p.opening = some target.name.lexeme
    · rw [if_pos (show (p.joined r names).opening = _ from ho)] at h'
      rw [if_pos ho]
      exact .inl h'
    · rw [if_neg (show ¬(p.joined r names).opening = _ from ho)] at h'
      rw [if_neg ho]
      exact Site.reached_of_distance h'
  | super keyword =>
    obtain ⟨d, -, hid, hsuper, -⟩ := h
    obtain ⟨e, -, -, hsuper', -⟩ := halone
    have hp : p.frames ≠ [] := by
      intro hp
      rw [Site.distance?, hp] at hsuper'
      cases hsuper'
    rw [Site.distance?_joined r names hp, hsuper', Option.some_or] at hsuper
    exact hid.trans (hsuper.symm.trans hsuper'.symm)
  | _ => trivial

/-- **What is legal in both programs, and in the second one alone with another table, is reached from
the marks of the second one.** -/
theorem reached_of_append {distances known : Distances} {first second : List Stmt}
    {r : Relocation}
    (h : ∀ x ∈ programSites (first ++ Stmt.relocateAll r second), x.2.Legal distances x.1)
    (halone : ∀ x ∈ programSites second, x.2.Legal known x.1) :
    ∀ x ∈ programSites second, x.2.Reached distances x.1 := by
  obtain ⟨names, hsites⟩ := programSites_append r first second
  intro x hx
  have hmem : Mark.joined r names x ∈ programSites (first ++ Stmt.relocateAll r second) := by
    rw [hsites]
    exact List.mem_append_right _ (List.mem_map_of_mem hx)
  have hlegal : (x.2.relocate r).Legal distances (x.1.joined r names) := h _ hmem
  exact hlegal.reached_alone (halone x hx)

end Lox
