import Lox.Proofs.Binding.Scoping

/-!
# The resolver finds lexical scope

* `Expr.walked`, `Stmt.walked`, …: the walk of the resolver over every part of a program finds the
  uses in it where the text says;
* **`lexical_of_parse`**: for every text, the recorded distances and links are those that the text
  says.
-/

namespace Lox

open Context

/-! ## Expressions -/

section

variable {program : List Stmt} {p : Site} {b e : TokenId} {l : Layer} {ls : List Layer}
  {c : Context}

theorem Ready.useAt {use : Occurrence} (h : Ready program p b e [] l ls [use.id] [use.name] c)
    (hspelled : use.name.Spelled) {marks : List Mark}
    (hmarks : marks.filterMap Mark.occurrence? = [use]) :
    Walked program [] l ls [use.id] [use.name] (p.mark marks) c (c.use use) := by
  refine h.use hspelled fun x hx o ho => ?_
  obtain ⟨m, hm, rfl⟩ := List.mem_map.mp hx
  have hmem : o ∈ marks.filterMap Mark.occurrence? := List.mem_filterMap.mpr ⟨m, hm, ho⟩
  rw [hmarks] at hmem
  exact ⟨List.mem_singleton.mp hmem, rfl, rfl⟩

/-- A word that stands where it may not stand is not looked up. -/
theorem Ready.refused {use : Occurrence} (h : Ready program p b e [] l ls [use.id] [use.name] c)
    (problem : StaticProblem) {marks : List Mark}
    (hmarks : marks.filterMap Mark.occurrence? = [use]) (hnot : ¬ p.Admits use.name) :
    Walked program [] l ls [use.id] [use.name] (p.mark marks) c (c.complain problem use.name) where
  grows := (grows_complain _ _).widen fun _ h => absurd h List.not_mem_nil
  kept := .refl
  traced := by
    intro _ _ x hx o ho hadmits
    obtain ⟨m, hm, rfl⟩ := List.mem_map.mp hx
    have hmem : o ∈ marks.filterMap Mark.occurrence? := List.mem_filterMap.mpr ⟨m, hm, ho⟩
    rw [hmarks] at hmem
    exact absurd (List.mem_singleton.mp hmem ▸ hadmits) hnot
  stands := h.stands.step (step_complain _ _)
  classKind := rfl

end

mutual

theorem Expr.walked {program : List Stmt} {p : Site} {b e : TokenId} {l : Layer} {ls : List Layer}
    {c : Context} : (x : Expr) → x.Regular → Ready program p b e [] l ls x.ids x.words c →
    Walked program [] l ls x.ids x.words (x.sites p) c (x.resolve c)
  | .literal _, _, h => h.walked
  | .grouping inner, .grouping hr, h => inner.walked hr h
  | .unary _ _ operand, .unary hr, h => operand.walked hr h
  | .binary left _ _ right, .binary hl hr, h => by
    rw [Expr.sites, Expr.marks, Site.mark, List.map_append]
    exact h.both (fun _ h => left.walked hl h) fun _ h => right.walked hr h
  | .logical left _ _ right, .logical hl hr, h => by
    rw [Expr.sites, Expr.marks, Site.mark, List.map_append]
    exact h.both (fun _ h => left.walked hl h) fun _ h => right.walked hr h
  | .variable use, .variable hn, h =>
    h.skip (step_check _ _ _) fun h => h.useAt hn.spelled rfl
  | .assign target value, .assign ht hv, h => by
    have hsites : Expr.sites p (.assign target value) =
        p.mark [.write target, .name target.name] ++ value.sites p := rfl
    rw [hsites]
    exact @Ready.reversed _ _ _ _ _ _ [target.id] value.ids [target.name] value.words _ _ _ _ _ h
      (fun _ h => value.walked hv h) fun _ h =>
        h.useAt ht.spelled rfl
  | .call callee arguments _, .call hc ha, h => by
    rw [Expr.sites, Expr.marks, Site.mark, List.map_append]
    exact h.both (fun _ h => callee.walked hc h) fun _ h => Expr.walkedAll arguments ha h
  | .get object _, .get hr _, h => object.walked hr h
  | .set object _ value, .set ho _ hv, h => by
    rw [Expr.sites, Expr.marks, Site.mark, List.map_append]
    exact h.both (fun _ h => object.walked ho h) fun _ h => value.walked hv h
  | .this keyword, .this hk, h => by
    rw [Expr.resolve]
    cases hc : c.classKind with
    | none => exact h.refused _ rfl fun ha => ha.this hk.isWord (h.classKind ▸ hc)
    | plain | subclass => exact h.useAt hk.spelled rfl
  | .super keyword _, .super hk _, h => by
    rw [Expr.resolve]
    cases hc : c.classKind with
    | none | plain =>
      refine h.refused _ rfl fun ha => ?_
      have := ha.super hk.isWord
      rw [← h.classKind, hc] at this
      cases this
    | subclass => exact h.useAt hk.spelled rfl

theorem Expr.walkedAll {program : List Stmt} {p : Site} {b e : TokenId} {l : Layer} {ls : List Layer}
    {c : Context} : (es : List Expr) → (∀ x ∈ es, x.Regular) →
    Ready program p b e [] l ls (Expr.idsAll es) (Expr.wordsAll es) c →
    Walked program [] l ls (Expr.idsAll es) (Expr.wordsAll es) (p.mark (Expr.marksAll es)) c
      (Expr.resolveAll c es)
  | [], _, h => h.walked
  | x :: rest, hr, h => by
    rw [Expr.marksAll, Site.mark, List.map_append]
    exact h.both (fun _ h => x.walked (hr x List.mem_cons_self) h) fun _ h =>
      Expr.walkedAll rest (fun y hy => hr y (List.mem_cons_of_mem x hy)) h

end

theorem Expr.walkedOption {program : List Stmt} {p : Site} {b e : TokenId} {l : Layer}
    {ls : List Layer} {c : Context} (x : Option Expr) (hr : ∀ y ∈ x, Expr.Regular y)
    (h : Ready program p b e [] l ls (Expr.idsOption x) (Expr.wordsOption x) c) :
    Walked program [] l ls (Expr.idsOption x) (Expr.wordsOption x) (Expr.sitesOption p x) c
      (Expr.resolveOption c x) := by
  cases x with
  | none => exact h.walked
  | some x => exact x.walked (hr x rfl) h

/-! ## Declarations of statements -/

theorem Stmt.declared?_eq_none {s : Stmt} (h : s.declares = false) : s.declared? = none := by
  cases s <;> first | rfl | cases h

theorem Stmt.bind_declared? {s : Option Stmt} (h : ∀ t ∈ s, Stmt.declares t = false) :
    s.bind Stmt.declared? = none := by
  cases s with
  | none => rfl
  | some s => exact Stmt.declared?_eq_none (h s rfl)

theorem Stmt.sublist_declared (s : Stmt) : s.declared?.toList.Sublist s.words := by
  cases s with
  | var name initializer => exact List.singleton_sublist.mpr List.mem_cons_self
  | function declaration => exact List.singleton_sublist.mpr List.mem_cons_self
  | «class» declaration =>
    obtain ⟨name, _, _, _⟩ := declaration
    exact List.singleton_sublist.mpr List.mem_cons_self
  | _ => exact List.nil_sublist _

theorem Stmt.sublist_declaredOption (s : Option Stmt) :
    (s.bind Stmt.declared?).toList.Sublist (Stmt.wordsOption s) := by
  cases s with
  | none => exact List.nil_sublist _
  | some s => exact s.sublist_declared

theorem Stmt.declared_cons (s : Stmt) (rest : List Stmt) :
    (s :: rest).filterMap Stmt.declared? = s.declared?.toList ++ rest.filterMap Stmt.declared? := by
  rw [List.filterMap_cons]
  cases s.declared? <;> rfl

theorem Stmt.sublist_declaredAll (ss : List Stmt) :
    (ss.filterMap Stmt.declared?).Sublist (Stmt.wordsAll ss) := by
  induction ss with
  | nil => exact List.nil_sublist _
  | cons s rest ih =>
    rw [Stmt.declared_cons]
    exact s.sublist_declared.append ih

/-! ## Scopes of statements -/

theorem Layer.state_opened {r : Region} (hr : r.word? = none) :
    (⟨r, [], none⟩ : Layer).state = Bindings.get? (.empty : ScopeNames) := by
  funext name
  simp [Layer.state, hr]

theorem Layer.state_word {r : Region} {k : Keyword} (hr : r.word? = some k) :
    (⟨r, [], none⟩ : Layer).state = Bindings.get? (wordScope k) := by
  funext name
  rw [wordScope, Bindings.get?_insert]
  simp [Layer.state, hr]

namespace Site

variable {p q : Site}

theorem Beside.refl (p : Site) : p.Beside p := ⟨rfl, rfl, rfl⟩

theorem beside_declare (name : String) : p.Beside (p.declare name) :=
  have h := behind_declare (p := p) name
  ⟨regions_declare p name, h.opening, h.classKind⟩

theorem Beside.enterLoop (h : p.Beside q) : p.Beside q.enterLoop :=
  ⟨h.regions, h.opening, h.classKind⟩

theorem beside_after (s : Stmt) : p.Beside (p.after s) := by
  unfold after
  cases s.declared? with
  | none => exact .refl p
  | some name => exact beside_declare name.lexeme

theorem beside_afterOption (s : Option Stmt) : p.Beside (p.afterOption s) := by
  cases s with
  | none => exact .refl p
  | some s => exact beside_after s

end Site

section

variable {program : List Stmt} {p q : Site} {b e : TokenId} {l : Layer} {ls : List Layer}
  {xs : List ExprId} {us cs : List Token} {c c₁ : Context} {s : List (Site × Mark)}

theorem Ready.opened {r : Region} (h : Ready program p b e [] l ls xs us c) (ho : l.opening = none)
    (hr : r.word? = none) (hcs : r.declarations program = cs) (hq : q.regions = r :: p.regions)
    (hp : q.opening = p.opening) (hk : q.classKind = p.classKind) :
    Ready program q b e cs ⟨r, [], none⟩ (l :: ls) xs us c.openScope :=
  h.enter hcs hq hp ho (h.classKind.trans hk.symm) grows_openScope (by rw [Layer.state_opened hr]; rfl) rfl

theorem Walked.closed {r : Region}
    (h : Walked program cs ⟨r, [], none⟩ (l :: ls) xs us s c.openScope c₁) :
    Walked program [] l ls xs us s c c₁.closeScope :=
  h.leave grows_openScope rfl grows_closeScope rfl rfl h.classKind

theorem Ready.branch {t : Stmt} (h : Ready program p b e [] l ls xs us c) (hd : t.declares = false)
    (hw : Ready program p b e t.declared?.toList l ls xs us c →
      Walked program t.declared?.toList l ls xs us s c c₁) :
    Walked program [] l ls xs us s c c₁ := by
  rw [Stmt.declared?_eq_none hd] at hw
  exact hw h

theorem Ready.branchOption {t : Option Stmt} (h : Ready program p b e [] l ls xs us c)
    (hd : ∀ u ∈ t, Stmt.declares u = false)
    (hw : Ready program p b e (t.bind Stmt.declared?).toList l ls xs us c →
      Walked program (t.bind Stmt.declared?).toList l ls xs us s c c₁) :
    Walked program [] l ls xs us s c c₁ := by
  rw [Stmt.bind_declared? hd] at hw
  exact hw h

theorem Ready.parameters (params : List Token) (h : Ready program p b e params l ls [] params c)
    (ho : l.opening = none) (hs : ∀ x ∈ s, x.2.occurrence? = none) :
    Walked program params l ls [] params s c (params.foldl parameter c) := by
  induction params generalizing c l b s with
  | nil => exact h.walked.marks fun x hx hne => absurd (hs x hx) hne
  | cons t rest ih =>
    have hwalk : Walked program ([t] ++ rest) l ls ([] ++ []) ([t] ++ rest) ([] ++ s) c
        (rest.foldl parameter (c.parameter t)) :=
      Ready.append h (.refl _) (.refl _) (.inr ho) ⟨rfl, rfl, rfl⟩
        (fun _ h => h.introduce ho .parameter (by simp)) fun _ h => ih h ho hs
    exact hwalk

end

/-! ## Classes -/

section

variable {program : List Stmt} {p q : Site} {b e : TokenId} {l : Layer} {ls : List Layer}
  {xs : List ExprId} {us cs : List Token} {c c₁ : Context} {s : List (Site × Mark)}
  {name : Token} {methods : List Function} {span : Position}

theorem Ready.ofClassKind (h : Ready program p b e cs l ls xs us c) (kind : ClassKind) :
    Ready program { p with classKind := kind } b e cs l ls xs us { c with classKind := kind } where
  regions := h.regions
  opening := h.opening
  closed := h.closed
  innermost := h.innermost
  outer := h.outer
  stands := ⟨h.stands.scopes, h.stands.known⟩
  classKind := rfl
  within := h.within
  fresh := ⟨⟨h.fresh.new.nodup, h.fresh.new.unknown⟩, h.fresh.distinct, h.fresh.free⟩

theorem Ready.enterWord {r : Region} {k : Keyword} (h : Ready program p b e [] l ls xs us c)
    (ho : l.opening = none) (hr : r.word? = some k) (hcs : r.declarations program = [])
    (hq : q.regions = r :: p.regions) (hp : q.opening = p.opening) (hk : q.classKind = p.classKind) :
    Ready program q b e [] ⟨r, [], none⟩ (l :: ls) xs us (c.openScope.bind k.spelling .implicit) :=
  h.enter hcs hq hp ho (h.classKind.trans hk.symm) (grows_openScope.trans (grows_bind _ _))
    (by rw [Layer.state_word hr]; rfl) rfl

theorem Walked.leaveWord {r : Region} {k : Keyword}
    (h : Walked program [] ⟨r, [], none⟩ (l :: ls) xs us s (c.openScope.bind k.spelling .implicit) c₁) :
    Walked program [] l ls xs us s c c₁.closeScope :=
  h.leave (grows_openScope.trans (grows_bind _ _)) rfl grows_closeScope rfl rfl h.classKind

/-- What is known of the methods of a class. -/
def WalksMethods (program : List Stmt) (methods : List Function) : Prop :=
  ∀ {q : Site} {b e : TokenId} {l : Layer} {ls : List Layer} {c : Context}, l.opening = none →
    Ready program q b e [] l ls (Function.idsAll methods) (Function.wordsAll methods) c →
      Walked program [] l ls (Function.idsAll methods) (Function.wordsAll methods)
        (Function.sitesMethods q methods) c (Function.resolveMethods c methods)

theorem Context.className_classKind : (c.className name).classKind = .plain :=
  (define_classKind _ _).trans (declare_classKind _)

theorem Ready.readName {use : Occurrence} (h : Ready program p b e [] l ls [use.id] [use.name] c)
    (hspelled : use.name.Spelled) (hs : ∀ x ∈ s, ∀ o ∈ x.2.occurrence?,
      o = use ∧ x.1.regions = p.regions ∧ x.1.opening = p.opening) :
    Walked program [] l ls [use.id] [use.name] s c ((Expr.variable use).resolve c) :=
  h.skip (step_check _ _ _) fun h => h.use hspelled hs

theorem Ready.inPlainClass (ho : l.opening = none)
    (h : Ready program { p.declare name.lexeme with classKind := .plain } b e [] l ls xs us c) :
    Ready program (p.enterClass ⟨name, none, methods, span⟩) b e []
      ⟨.this ⟨name, none, methods, span⟩, [], none⟩ (l :: ls) xs us
      (c.openScope.bind Keyword.this.spelling .implicit) :=
  h.enterWord ho rfl rfl rfl rfl rfl

theorem Ready.plainClass (hm : WalksMethods program methods) (ho : l.opening = none)
    (h : Ready program { p.declare name.lexeme with classKind := .plain } b e [] l ls
      (Function.idsAll methods) (Function.wordsAll methods) (c.className name)) :
    Walked program [] l ls (Function.idsAll methods) (Function.wordsAll methods)
      (Function.sitesMethods (p.enterClass ⟨name, none, methods, span⟩) methods) (c.className name)
      { Class.resolve c ⟨name, none, methods, span⟩ with classKind := .plain } :=
  .ofClassKind .plain ((hm rfl (h.inPlainClass ho)).leaveWord.withClassKind .plain)
    className_classKind.symm

theorem Ready.inSubclass {use : Occurrence} (ho : l.opening = none)
    (h : Ready program { p.declare name.lexeme with classKind := .subclass } b e [] l ls xs us c) :
    Ready program (p.enterClass ⟨name, some use, methods, span⟩) b e []
      ⟨.this ⟨name, some use, methods, span⟩, [], none⟩
      (⟨.super ⟨name, some use, methods, span⟩, [], none⟩ :: l :: ls) xs us
      ((c.openScope.bind Keyword.super.spelling .implicit).openScope.bind Keyword.this.spelling
        .implicit) := by
  have hsuper := h.enterWord (r := .super ⟨name, some use, methods, span⟩) (k := .super)
    (q := (p.declare name.lexeme).enterSuper ⟨name, some use, methods, span⟩) ho rfl rfl rfl rfl rfl
  exact hsuper.enterWord rfl rfl rfl rfl rfl rfl

theorem Ready.subclass {use : Occurrence} (hm : WalksMethods program methods) (ho : l.opening = none)
    (hspelled : use.name.Spelled)
    (h : Ready program { p.declare name.lexeme with classKind := .plain } b e [] l ls
      ([use.id] ++ Function.idsAll methods) ([use.name] ++ Function.wordsAll methods)
      (c.className name)) :
    Walked program [] l ls ([use.id] ++ Function.idsAll methods)
      ([use.name] ++ Function.wordsAll methods)
      ([(p, .read use)] ++
        Function.sitesMethods (p.enterClass ⟨name, some use, methods, span⟩) methods)
      (c.className name)
      { Class.resolve c ⟨name, some use, methods, span⟩ with classKind := .plain } := by
  refine h.skip (step_check (use.name.lexeme == name.lexeme) .inheritsFromItself use.name) fun h => ?_
  refine .ofClassKind .subclass ?_
    ((step_check _ _ _).classKind.trans className_classKind).symm
  refine (h.ofClassKind .subclass).both (fun _ h => h.readName hspelled ?_) fun m h => ?_
  · intro x hx o hread
    obtain rfl := List.mem_singleton.mp hx
    have hbeside := Site.beside_declare (p := p) name.lexeme
    exact ⟨(Option.some.inj hread).symm, hbeside.regions.symm, hbeside.opening.symm⟩
  · have hinner : Ready program (p.enterClass ⟨name, some use, methods, span⟩) m e [] _ _ _ _ _ :=
      h.inSubclass ho
    exact .ofClassKind .subclass ((hm rfl hinner).leaveWord.leaveWord.withClassKind .subclass)
      h.classKind.symm

end

/-! ## Statements -/

mutual

theorem Stmt.walked {program : List Stmt} {p : Site} {b e : TokenId} {l : Layer} {ls : List Layer}
    {c : Context} : (s : Stmt) → s.Regular → l.opening = none →
    Ready program p b e s.declared?.toList l ls s.ids s.words c →
    Walked program s.declared?.toList l ls s.ids s.words (s.sites p) c (s.resolve c)
  | .expression x, .expression hr, _, h => (x.walked hr h).mark rfl
  | .print x, .print hr, _, h => (x.walked hr h).mark rfl
  | .var name initializer, .var _ hi, ho, h => by
    have hwalk : Walked program [name] l ls (Expr.idsOption initializer)
        (name :: Expr.wordsOption initializer)
        (Expr.sitesOption (p.initializing name.lexeme) initializer) c _ :=
      h.variable ho (fun _ h => Expr.walkedOption initializer hi h) .variable
    exact (hwalk.mark rfl).mark rfl
  | .block body, .block hr, ho, h => by
    have hinner : Ready program (p.enter (.block body) []) b e (body.filterMap Stmt.declared?)
        ⟨.block body, [], none⟩ (l :: ls) (Stmt.idsAll body) (Stmt.wordsAll body) c.openScope :=
      h.opened ho rfl rfl rfl rfl rfl
    exact (Stmt.walkedAll body hr rfl hinner).closed.mark rfl
  | .ifElse condition thenBranch elseBranch, .ifElse hc ht hd he hd', ho, h => by
    have h : Ready program p b e [] l ls
        (condition.ids ++ thenBranch.ids ++ Stmt.idsOption elseBranch)
        (condition.words ++ thenBranch.words ++ Stmt.wordsOption elseBranch) c := h
    have hwalk := h.both (fun _ h => h.both (fun _ h => condition.walked hc h) fun _ h =>
      h.branch hd (thenBranch.walked ht ho)) fun _ h =>
        h.branchOption hd' (Stmt.walkedOption elseBranch he ho)
    exact hwalk.mark rfl
  | .whileLoop condition body, .whileLoop hc hb hd, ho, h => by
    have h : Ready program p b e [] l ls (condition.ids ++ body.ids) (condition.words ++ body.words)
      c := h
    have hwalk := h.appendExpression (List.nil_sublist _) (.inl rfl)
      (Site.Beside.refl p).enterLoop (fun _ h => condition.walked hc h) fun _ h =>
        (h.skip step_enterLoop fun h => h.branch hd (body.walked hb ho)).behind step_leaveLoop
    exact hwalk.mark rfl
  | .forLoop initializer condition increment body, .forLoop hi hk hc hs hb hd, ho, h => by
    have hinner : Ready program (p.enter (.clauses initializer condition increment body) []) b e
        (initializer.bind Stmt.declared?).toList ⟨.clauses initializer condition increment body, [], none⟩
        (l :: ls) (Stmt.idsOption initializer ++ Expr.idsOption condition ++
          Expr.idsOption increment ++ body.ids)
        (Stmt.wordsOption initializer ++ Expr.wordsOption condition ++ Expr.wordsOption increment ++
          body.words) c.openScope := h.opened ho rfl rfl rfl rfl rfl
    have hbehind := Site.beside_afterOption
      (p := p.enter (.clauses initializer condition increment body) []) initializer
    have hcs := Stmt.sublist_declaredOption initializer
    have hcs₂ := hcs.trans (List.sublist_append_left _ (Expr.wordsOption condition))
    have hcs₃ := hcs₂.trans (List.sublist_append_left _ (Expr.wordsOption increment))
    have hwalk := hinner.appendExpression hcs₃ (.inr rfl) hbehind.enterLoop
      (fun _ h => h.appendExpression hcs₂ (.inr rfl) hbehind
        (fun _ h => h.appendExpression hcs (.inr rfl) hbehind
          (fun _ h => Stmt.walkedOption initializer hi rfl h)
          fun _ h => Expr.walkedOption condition hc h)
        fun _ h => Expr.walkedOption increment hs h)
      fun _ h => (h.skip step_enterLoop fun h => h.branch hd (body.walked hb rfl)).behind step_leaveLoop
    exact hwalk.closed.mark rfl
  | .function declaration, .function hr, ho, h => by
    have h : Ready program p b e ([declaration.name] ++ []) l ls ([] ++ declaration.ids)
      ([declaration.name] ++ declaration.words) c := h
    have hwalk := h.append (.refl _) (List.nil_sublist _) (.inr ho)
      (Site.beside_declare declaration.name.lexeme)
      (fun _ h => h.introduce ho .function (s := [(p, .name declaration.name)])
        (by simp [Mark.occurrence?]))
      fun _ h => declaration.walked .function hr ho h
    exact hwalk.mark rfl
  | .class declaration, .class hr, ho, h => (declaration.walked hr ho h).mark rfl
  | .return keyword value, .return hr, ho, h => by
    rw [Stmt.resolve]
    exact Walked.mark (.mark (h.skip (step_check _ _ _) fun h => h.skip (step_check _ _ _) fun h =>
      Expr.walkedOption value hr h) rfl) rfl
  | .break keyword, .break, _, h =>
    ((h.walked.behind (step_check _ _ _)).mark rfl).mark rfl
  | .continue keyword, .continue, _, h =>
    ((h.walked.behind (step_check _ _ _)).mark rfl).mark rfl

theorem Stmt.walkedAll {program : List Stmt} {p : Site} {b e : TokenId} {l : Layer} {ls : List Layer}
    {c : Context} : (ss : List Stmt) → (∀ s ∈ ss, s.Regular) → l.opening = none →
    Ready program p b e (ss.filterMap Stmt.declared?) l ls (Stmt.idsAll ss) (Stmt.wordsAll ss) c →
    Walked program (ss.filterMap Stmt.declared?) l ls (Stmt.idsAll ss) (Stmt.wordsAll ss)
      (Stmt.sitesAll p ss) c (Stmt.resolveAll c ss)
  | [], _, _, h => h.walked
  | s :: rest, hr, ho, h => by
    rw [Stmt.declared_cons] at h ⊢
    exact h.append s.sublist_declared (Stmt.sublist_declaredAll rest) (.inr ho) (Site.beside_after s)
      (fun _ h => s.walked (hr s List.mem_cons_self) ho h)
      fun _ h => Stmt.walkedAll rest (fun t ht => hr t (List.mem_cons_of_mem s ht)) ho h

theorem Stmt.walkedOption {program : List Stmt} {p : Site} {b e : TokenId} {l : Layer}
    {ls : List Layer} {c : Context} : (s : Option Stmt) → (∀ t ∈ s, Stmt.Regular t) →
    l.opening = none →
    Ready program p b e (s.bind Stmt.declared?).toList l ls (Stmt.idsOption s) (Stmt.wordsOption s) c →
    Walked program (s.bind Stmt.declared?).toList l ls (Stmt.idsOption s) (Stmt.wordsOption s)
      (Stmt.sitesOption p s) c (Stmt.resolveOption c s)
  | none, _, _, h => h.walked
  | some s, hr, ho, h => s.walked (hr s rfl) ho h

theorem Function.walked {program : List Stmt} {p : Site} {b e : TokenId} {l : Layer} {ls : List Layer}
    {c : Context} (kind : FunctionKind) : (f : Function) → f.Regular → l.opening = none →
    Ready program p b e [] l ls f.ids f.words c →
    Walked program [] l ls f.ids f.words (f.sites kind p) c (f.resolve kind c)
  | ⟨name, params, body, span⟩, .mk _ _ hb, ho, h => by
    have hinner : Ready program (p.enterFunction kind ⟨name, params, body, span⟩) b e
        (params ++ body.filterMap Stmt.declared?) ⟨.function ⟨name, params, body, span⟩, [], none⟩
        (l :: ls) ([] ++ Stmt.idsAll body) (params ++ Stmt.wordsAll body) (c.enterFunction kind) :=
      h.enter rfl rfl rfl ho h.classKind (grows_enterFunction kind)
        (by rw [Layer.state_opened rfl]; rfl) rfl
    have hwalk := hinner.append (.refl _) (Stmt.sublist_declaredAll body) (.inr rfl) (.refl _)
      (fun _ h => h.parameters params rfl
        (s := (p.enterFunction kind ⟨name, params, body, span⟩).mark (params.map .name)) ?_)
      fun _ h => Stmt.walkedAll body hb rfl h
    · exact hwalk.leave (grows_enterFunction kind) rfl (grows_leaveFunction c) rfl rfl hwalk.classKind
    · simp [Site.mark, Mark.occurrence?]

theorem Function.walkedMethods {program : List Stmt} {p : Site} {b e : TokenId} {l : Layer}
    {ls : List Layer} {c : Context} : (fs : List Function) → (∀ f ∈ fs, f.Regular) →
    l.opening = none → Ready program p b e [] l ls (Function.idsAll fs) (Function.wordsAll fs) c →
    Walked program [] l ls (Function.idsAll fs) (Function.wordsAll fs) (Function.sitesMethods p fs) c
      (Function.resolveMethods c fs)
  | [], _, _, h => h.walked
  | f :: rest, hr, ho, h =>
    h.both (fun _ h => f.walked f.methodKind (hr f List.mem_cons_self) ho h) fun _ h =>
      Function.walkedMethods rest (fun g hg => hr g (List.mem_cons_of_mem f hg)) ho h

theorem Class.walked {program : List Stmt} {p : Site} {b e : TokenId} {l : Layer} {ls : List Layer}
    {c : Context} : (k : Class) → k.Regular → l.opening = none →
    Ready program p b e [k.name] l ls k.ids k.words c →
    Walked program [k.name] l ls k.ids k.words (k.sites p) c (k.resolve c)
  | ⟨name, superclass, methods, span⟩, .mk _ hs hm, ho, h => by
    have hmethods : WalksMethods program methods := Function.walkedMethods methods hm
    have h : Ready program { p with classKind := .plain } b e ([name] ++ []) l ls
      ([] ++ (Occurrence.idsOption superclass ++ Function.idsAll methods))
      ([name] ++ (Occurrence.wordsOption superclass ++ Function.wordsAll methods))
      { c with classKind := .plain } := h.ofClassKind .plain
    refine .ofClassKind .plain ?_ rfl
    have hname : ∀ x ∈ [(p, Mark.name name)], x.2.occurrence? = none := by simp [Mark.occurrence?]
    refine h.append (.refl _) (List.nil_sublist _) (.inr ho) (Site.beside_declare name.lexeme)
      (fun _ h => h.introduce ho .class hname) fun _ h => ?_
    rw [Site.declare_classKind] at h
    cases superclass with
    | none => exact h.plainClass hmethods ho
    | some use => exact h.subclass hmethods ho (hs use rfl).spelled

end

/-! ## Programs -/

/-- Words with rising numbers lie in some range. -/
theorem exists_within {ws : List Token} (h : ws.Pairwise fun t u => t.id < u.id) :
    ∃ e, Within 0 e ws := by
  have hbound : ∃ e, ∀ t ∈ ws, t.id < e := by
    clear h
    induction ws with
    | nil => exact ⟨0, by simp⟩
    | cons t ws ih =>
      obtain ⟨e, he⟩ := ih
      refine ⟨max (t.id + 1) e, List.forall_mem_cons.mpr ⟨?_, fun u hu => ?_⟩⟩
      · exact Nat.lt_of_lt_of_le (Nat.lt_succ_self _) (Nat.le_max_left _ _)
      · exact Nat.lt_of_lt_of_le (he u hu) (Nat.le_max_right _ _)
  obtain ⟨e, he⟩ := hbound
  exact ⟨e, Nat.zero_le _, h, fun _ _ => Nat.zero_le _, he⟩

theorem exists_ready {program : List Stmt} (hids : (Stmt.idsAll program).Nodup)
    (hwords : (Stmt.wordsAll program).Pairwise fun t u => t.id < u.id) :
    ∃ e, Ready program .start 0 e (program.filterMap Stmt.declared?) ⟨.top, [], none⟩ []
      (Stmt.idsAll program) (Stmt.wordsAll program) .start := by
  obtain ⟨e, he⟩ := exists_within hwords
  have hdistinct : ((Stmt.wordsAll program).map Token.id).Nodup :=
    List.pairwise_map.mpr (hwords.imp Nat.ne_of_lt)
  exact ⟨e, {
    regions := rfl
    opening := rfl
    closed := by simp
    innermost := ⟨⟨[], by simp [Region.declarations, Layer.passed], by simp⟩, by simp [Layer.passed],
      by simp [Layer.passed]⟩
    outer := by simp
    stands := ⟨by rw [List.map_cons, Layer.state_opened rfl]; rfl, by simp⟩
    classKind := rfl
    within := he
    fresh := ⟨⟨hids, fun _ _ => rfl⟩, hdistinct, fun _ _ => rfl⟩ }⟩

section

variable {program : List Stmt} (hr : ∀ s ∈ program, s.Regular) (hids : (Stmt.idsAll program).Nodup)
  (hwords : (Stmt.wordsAll program).Pairwise fun t u => t.id < u.id)

include hr hids hwords

/-- In the end the uses are found where the text says. -/
theorem traced_of_resolve {x : Site × Mark} (hx : x ∈ programSites program) {use : Occurrence}
    (huse : use ∈ x.2.occurrence?) (hadmits : x.1.Admits use.name) :
    x.1.Located program (resolve program).distances use ∧ (use.name.IsName →
      x.1.Refers program (resolve program).distances (resolve program).symbols use) := by
  obtain ⟨e, hready⟩ := exists_ready hids hwords
  exact (Stmt.walkedAll program hr rfl hready).traced _
    ⟨fun _ _ => rfl, fun _ _ => rfl, List.prefix_rfl⟩ x hx use huse hadmits

/-- **The resolver finds lexical scope** in every regular program whose words are numbered in their
order. -/
theorem lexical_of_resolve : (resolve program).Lexical program := by
  intro x hx use huse hadmits
  obtain ⟨hlocated, hrefers⟩ := traced_of_resolve hr hids hwords hx huse hadmits
  exact ⟨hlocated, fun hname => (hrefers hname).linked⟩

end

/-- **The resolver finds lexical scope in every text**: the distance of a use is that of the
innermost scope around it in which its name is declared in front of it, and the use is linked to
the last of these declarations. -/
theorem lexical_of_parse (source : String) (firstId : ExprId) :
    (resolve (parse source firstId).tree).Lexical (parse source firstId).tree :=
  lexical_of_resolve (regular_parse source firstId) (numbered_parse source firstId).2.nodup
    (pairwise_words_parse source firstId)

end Lox
