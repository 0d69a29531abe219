import Mathlib.Data.List.Forall2
import Lox.Proofs.Binding.Placed
import Lox.Proofs.Syntax.Respelling

/-!
# The sites of a respelled program

A program whose identifiers are spelled in another way has the same sites, but for the spelling of
what stands there.

* `Respelling.Fits`: a token is one of the former name, or it does not get in the way of the new one;
* `Region.Respells`, `Frame.Respells`, `Site.Respells`: scopes and sites that stand for each other;
* `Mark.respell`: the mark in the other text, `Site.Pairs`: marks at sites that stand for each other;
* **`Stmt.sites_respell`**, …: so do the sites of every part of a program;
* **`noError_respell`**: a program without errors has none in the other spelling.
-/

namespace Lox

/-! ## Tokens -/

/-- A token that changes has the former name and becomes no word of the language, and no other token
has the new name. -/
structure Respelling.Fits (r : Respelling) (t : Token) : Prop where
  old : r.picks t = true → t.lexeme = r.old
  word : r.picks t = true → ∀ k : Keyword, r.new ≠ k.spelling
  new : r.picks t = false → t.lexeme ≠ r.new

section

variable {r : Respelling} {t u : Token}

/-- **No two names become one.** -/
theorem Respelling.Fits.respelled_inj (ht : r.Fits t) (hu : r.Fits u)
    (h : t.respelled r = u.respelled r) : t.lexeme = u.lexeme ∧ r.picks t = r.picks u := by
  cases hpt : r.picks t <;> cases hpu : r.picks u
  · rw [Token.respelled_of_not_picks hpt, Token.respelled_of_not_picks hpu] at h
    exact ⟨h, rfl⟩
  · rw [Token.respelled_of_not_picks hpt, Token.respelled_of_picks hpu] at h
    exact absurd h (ht.new hpt)
  · rw [Token.respelled_of_not_picks hpu, Token.respelled_of_picks hpt] at h
    exact absurd h.symm (hu.new hpu)
  · exact ⟨(ht.old hpt).trans (hu.old hpu).symm, rfl⟩

theorem Token.respelled_congr (h : t.lexeme = u.lexeme) (hpicks : r.picks t = r.picks u) :
    t.respelled r = u.respelled r := by
  rw [respelled, respelled, hpicks, h]

theorem Token.respelled_ne_spelling (ht : r.Fits t) (hname : t.Names) (k : Keyword) :
    t.respelled r ≠ k.spelling := by
  cases hpicks : r.picks t with
  | false =>
    rw [respelled_of_not_picks hpicks]
    exact hname.lexeme_ne k
  | true =>
    rw [respelled_of_picks hpicks]
    exact ht.word hpicks k

end

/-! ## Scopes -/

section

variable (r : Respelling)

/-- A scope of a program, and of the other text. -/
inductive Region.Respells : Region → Region → Prop where
  | top : Respells .top .top
  | block (body) : Respells (.block body) (.block (Stmt.respellAll r body))
  | clauses (initializer condition increment body) :
      Respells (.clauses initializer condition increment body)
        (.clauses (Stmt.respellOption r initializer) (condition.map (Expr.respell r))
          (increment.map (Expr.respell r)) (body.respell r))
  | function (f name) : Respells (.function f) (.function (f.respell r name))
  | this (c) : Respells (.this c) (.this (c.respell r))
  | super (c) : Respells (.super c) (.super (c.respell r))

/-- Scopes around a place of a program, and of the other text. The words of the language are bound in
both or in none. -/
structure Frame.Respells (f f' : Frame) : Prop where
  region : Region.Respells r f.region f'.region
  words : ∀ k : Keyword, f'.names.contains k.spelling = f.names.contains k.spelling

/-- A place of a program, and of the other text. -/
structure Site.Respells (p p' : Site) : Prop where
  frames : List.Forall₂ (Frame.Respells r) p.frames p'.frames
  functionKind : Region.functionKind p'.regions = Region.functionKind p.regions
  loopDepth : p'.loopDepth = p.loopDepth
  opening : ∃ o : Option Token, (∀ t ∈ o, r.Fits t) ∧ p.opening = o.map Token.lexeme ∧
    p'.opening = o.map (Token.respelled r)

/-- The mark in the other text. -/
def Mark.respell : Mark → Mark
  | .statement s => .statement (s.respell r)
  | .read use => .read (use.respell r)
  | .write target => .write (target.respell r)
  | .super keyword => .super (keyword.respell r)
  | .name token => .name (token.respell r)
  | .return => .return
  | .break => .break
  | .continue => .continue

/-- The names that a mark speaks of. -/
def Mark.tokens : Mark → List Token
  | .statement (.class c) => c.name :: Occurrence.wordsOption c.superclass
  | .statement _ => []
  | .read use => [use.name]
  | .write target => [target.name]
  | .super keyword => [keyword.name]
  | .name token => [token]
  | .return | .break | .continue => []

/-- The same mark at sites that stand for each other, with names that may be spelled anew. -/
structure Site.Pairs (x x' : Site × Mark) : Prop where
  site : Site.Respells r x.1 x'.1
  mark : x'.2 = x.2.respell r
  fits : ∀ t ∈ x.2.tokens, r.Fits t

end

section

variable {r : Respelling} {program : List Stmt} {region region' : Region} {p p' : Site}

theorem Stmt.declared?_respell (s : Stmt) :
    (s.respell r).declared? = s.declared?.map (Token.respell r) := by
  cases s with
  | function f => exact congrArg some (Function.name_respell r _ f)
  | «class» c => exact congrArg some (Class.name_respell r c)
  | _ => rfl

theorem Stmt.filterMap_declared?_respell (ss : List Stmt) :
    (Stmt.respellAll r ss).filterMap Stmt.declared? =
      (ss.filterMap Stmt.declared?).map (Token.respell r) := by
  rw [Stmt.respellAll_eq, List.filterMap_map, List.map_filterMap]
  exact List.filterMap_congr fun s _ => s.declared?_respell

namespace Region.Respells

theorem declarations (h : Region.Respells r region region') :
    region'.declarations (Stmt.respellAll r program) =
      (region.declarations program).map (Token.respell r) := by
  cases h with
  | top => exact Stmt.filterMap_declared?_respell program
  | block body => exact Stmt.filterMap_declared?_respell body
  | clauses initializer _ _ _ =>
    cases initializer with
    | none => rfl
    | some s =>
      show (s.respell r).declared?.toList = s.declared?.toList.map _
      rw [s.declared?_respell]
      cases s.declared? <;> rfl
  | function f name =>
    show (f.respell r name).params ++ (f.respell r name).body.filterMap Stmt.declared? = _
    rw [Function.params_respell, Function.body_respell, Stmt.filterMap_declared?_respell,
      ← List.map_append]
    rfl
  | this | super => rfl

theorem class? (h : Region.Respells r region region') :
    region'.class? = region.class?.map (Class.respell r) := by
  cases h <;> rfl

theorem ne_this (h : Region.Respells r region region') (hne : ∀ c, region ≠ .this c) (c : Class) :
    region' ≠ .this c := by
  cases h with
  | this c => exact absurd rfl (hne c)
  | _ => exact nofun

end Region.Respells

namespace Site.Respells

theorem regions (h : Site.Respells r p p') :
    List.Forall₂ (Region.Respells r) p.regions p'.regions := by
  rw [Site.regions, Site.regions, List.forall₂_map_left_iff, List.forall₂_map_right_iff]
  exact h.frames.imp fun _ _ hf => hf.region

theorem class? (h : Site.Respells r p p') : p'.class? = p.class?.map (Class.respell r) := by
  have hregions := h.regions
  unfold Site.class?
  generalize p.regions = regions, p'.regions = regions' at hregions
  induction hregions with
  | nil => rfl
  | @cons region region' _ _ hr _ ih =>
    rw [List.findSome?_cons, List.findSome?_cons, hr.class?]
    cases region.class? with
    | none => exact ih
    | some c => rfl

theorem head?_ne_this (h : Site.Respells r p p') (hb : ∀ c, p.regions.head? ≠ some (.this c))
    (c : Class) : p'.regions.head? ≠ some (.this c) := by
  have hregions := h.regions
  generalize p.regions = regions, p'.regions = regions' at hregions hb
  cases hregions with
  | nil => exact nofun
  | cons hr _ =>
    intro hc
    exact hr.ne_this (fun c hc => hb c (congrArg some hc)) c (Option.some.inj hc)

theorem start : Site.Respells r .start .start where
  frames := .cons ⟨.top, fun _ => rfl⟩ .nil
  functionKind := rfl
  loopDepth := rfl
  opening := ⟨none, nofun, rfl, rfl⟩

theorem declare (h : Site.Respells r p p') {t : Token} (ht : r.Fits t) (hname : t.Names) :
    Site.Respells r (p.declare t.lexeme) (p'.declare (t.respell r).lexeme) := by
  have hwords {names names' : List String} {k : Keyword}
      (hn : names'.contains k.spelling = names.contains k.spelling) :
      (t.respelled r :: names').contains k.spelling = (t.lexeme :: names).contains k.spelling := by
    rw [List.contains_cons, List.contains_cons, hn,
      beq_eq_false_iff_ne.mpr (Token.respelled_ne_spelling ht hname k).symm,
      beq_eq_false_iff_ne.mpr (hname.lexeme_ne k).symm]
  obtain ⟨frames, _, _, _, _⟩ := p
  obtain ⟨frames', _, _, _, _⟩ := p'
  obtain ⟨hframes, hkind, hdepth, hopening⟩ := h
  cases hframes with
  | nil => exact ⟨.nil, hkind, hdepth, hopening⟩
  | cons hf hrest =>
    exact ⟨.cons ⟨hf.region, fun k => hwords (hf.words k)⟩ hrest, hkind, hdepth, hopening⟩

theorem after (h : Site.Respells r p p') {s : Stmt} (hs : s.Regular) (hw : ∀ t ∈ s.words, r.Fits t) :
    Site.Respells r (p.after s) (p'.after (s.respell r)) := by
  have hsub : ∀ t ∈ s.declared?, r.Fits t := fun t ht =>
    hw t (s.sublist_declared.subset (Option.mem_toList.mpr ht))
  unfold Site.after
  rw [s.declared?_respell]
  cases hs with
  | @var name _ hname _ => exact h.declare (hsub name rfl) hname
  | function hf =>
    cases hf with
    | mk hname _ _ => exact h.declare (hsub _ rfl) hname
  | «class» hc =>
    cases hc with
    | mk hname _ _ => exact h.declare (hsub _ rfl) hname
  | _ => exact h

theorem enterLoop (h : Site.Respells r p p') : Site.Respells r p.enterLoop p'.enterLoop :=
  ⟨h.frames, h.functionKind, congrArg (· + 1) h.loopDepth, h.opening⟩

theorem initializing (h : Site.Respells r p p') {t : Token} (ht : r.Fits t) :
    Site.Respells r (p.initializing t.lexeme) (p'.initializing (t.respell r).lexeme) :=
  ⟨h.frames, h.functionKind, h.loopDepth, some t, fun _ hu => Option.some.inj hu ▸ ht, rfl, rfl⟩

theorem enter (h : Site.Respells r p p') (hr : Region.Respells r region region')
    (hkind : ∀ outer, Region.functionKind (region :: outer) = Region.functionKind outer)
    (hkind' : ∀ outer, Region.functionKind (region' :: outer) = Region.functionKind outer) :
    Site.Respells r (p.enter region []) (p'.enter region' []) :=
  ⟨.cons ⟨hr, fun _ => rfl⟩ h.frames, (hkind' _).trans (h.functionKind.trans (hkind _).symm),
    h.loopDepth, h.opening⟩

theorem enterFunction (h : Site.Respells r p p') (kind : FunctionKind) {f : Function} {name : Token}
    (hparams : ∀ t ∈ f.params, Token.Names t) (hw : ∀ t ∈ f.params, r.Fits t)
    (hkind : Region.functionKind (.function (f.respell r name) :: p'.regions) =
      Region.functionKind (.function f :: p.regions)) :
    Site.Respells r (p.enterFunction kind f) (p'.enterFunction kind (f.respell r name)) := by
  refine ⟨.cons ⟨.function f name, fun k => ?_⟩ h.frames, hkind, rfl, h.opening⟩
  show ((f.respell r name).params.map Token.lexeme).contains k.spelling =
    (f.params.map Token.lexeme).contains k.spelling
  rw [Function.params_respell, List.map_map, Bool.eq_iff_iff, List.contains_iff_mem,
    List.contains_iff_mem]
  refine iff_of_false ?_ ?_ <;> rw [List.mem_map] <;> rintro ⟨t, ht, he⟩
  · exact Token.respelled_ne_spelling (hw t ht) (hparams t ht) k he
  · exact (hparams t ht).lexeme_ne k he

theorem enterClass (h : Site.Respells r p p') {c : Class} (ht : r.Fits c.name) (hname : c.name.Names) :
    Site.Respells r (p.enterClass c) (p'.enterClass (c.respell r)) := by
  have hd := h.declare ht hname
  rw [Site.enterClass, Site.enterClass, Class.name_respell, Site.enterSuper, Site.enterSuper,
    Class.superclass_respell]
  cases c.superclass with
  | none => exact ⟨.cons ⟨.this c, fun _ => rfl⟩ hd.frames, hd.functionKind, hd.loopDepth, hd.opening⟩
  | some use =>
    exact ⟨.cons ⟨.this c, fun _ => rfl⟩ (.cons ⟨.super c, fun _ => rfl⟩ hd.frames),
      hd.functionKind, hd.loopDepth, hd.opening⟩

end Site.Respells

end

/-! ## Marks -/

section

variable {r : Respelling} {p p' : Site}

mutual

theorem Expr.marks_respell : (e : Expr) → (e.respell r).marks = e.marks.map (Mark.respell r)
  | .literal _ | .variable _ | .this _ | .super _ _ => rfl
  | .grouping e | .unary _ _ e | .get e _ => e.marks_respell
  | .assign _ e => by
    simp only [Expr.respell, Expr.marks, e.marks_respell, List.map_cons]
    rfl
  | .binary a _ _ b | .logical a _ _ b | .set a _ b => by
    simp only [Expr.respell, Expr.marks, a.marks_respell, b.marks_respell, List.map_append]
  | .call e es _ => by
    simp only [Expr.respell, Expr.marks, e.marks_respell, Expr.marksAll_respell es,
      List.map_append]

theorem Expr.marksAll_respell : (es : List Expr) →
    Expr.marksAll (Expr.respellAll r es) = (Expr.marksAll es).map (Mark.respell r)
  | [] => rfl
  | e :: rest => by
    simp only [Expr.respellAll, Expr.marksAll, e.marks_respell, Expr.marksAll_respell rest,
      List.map_append]

end

mutual

theorem Expr.tokens_marks {t : Token} : (e : Expr) → ∀ m ∈ e.marks, t ∈ m.tokens → t ∈ e.words
  | .literal _ => by simp [Expr.marks]
  | .variable _ | .this _ | .super _ _ => by simp [Expr.marks, Expr.words, Mark.tokens]
  | .grouping e | .unary _ _ e | .get e _ => e.tokens_marks
  | .assign target e => by
    simp only [Expr.marks, List.forall_mem_cons, Mark.tokens, Expr.words, List.mem_singleton]
    exact ⟨fun h => h ▸ List.mem_cons_self, fun h => h ▸ List.mem_cons_self, fun m hm ht =>
      List.mem_cons_of_mem _ (e.tokens_marks m hm ht)⟩
  | .binary a _ _ b | .logical a _ _ b | .set a _ b =>
    List.forall_mem_append.mpr ⟨fun m hm ht => List.mem_append_left _ (a.tokens_marks m hm ht),
      fun m hm ht => List.mem_append_right _ (b.tokens_marks m hm ht)⟩
  | .call e es _ =>
    List.forall_mem_append.mpr ⟨fun m hm ht => List.mem_append_left _ (e.tokens_marks m hm ht),
      fun m hm ht => List.mem_append_right _ (Expr.tokens_marksAll es m hm ht)⟩

theorem Expr.tokens_marksAll {t : Token} :
    (es : List Expr) → ∀ m ∈ Expr.marksAll es, t ∈ m.tokens → t ∈ Expr.wordsAll es
  | [] => by simp [Expr.marksAll]
  | e :: rest =>
    List.forall_mem_append.mpr ⟨fun m hm ht => List.mem_append_left _ (e.tokens_marks m hm ht),
      fun m hm ht => List.mem_append_right _ (Expr.tokens_marksAll rest m hm ht)⟩

end

theorem Site.Respells.mark (h : Site.Respells r p p') {marks : List Mark}
    (hw : ∀ m ∈ marks, ∀ t ∈ m.tokens, r.Fits t) :
    List.Forall₂ (Site.Pairs r) (p.mark marks) (p'.mark (marks.map (Mark.respell r))) := by
  rw [Site.mark, Site.mark, List.map_map, List.forall₂_map_left_iff, List.forall₂_map_right_iff,
    List.forall₂_same]
  exact fun m hm => ⟨h, rfl, hw m hm⟩

theorem Expr.sites_respell (h : Site.Respells r p p') (e : Expr) (hw : ∀ t ∈ e.words, r.Fits t) :
    List.Forall₂ (Site.Pairs r) (e.sites p) ((e.respell r).sites p') := by
  rw [Expr.sites, Expr.sites, e.marks_respell]
  exact h.mark fun m hm t ht => hw t (e.tokens_marks m hm ht)

theorem Expr.sitesOption_respell (h : Site.Respells r p p') (e : Option Expr)
    (hw : ∀ t ∈ Expr.wordsOption e, r.Fits t) :
    List.Forall₂ (Site.Pairs r) (Expr.sitesOption p e)
      (Expr.sitesOption p' (e.map (Expr.respell r))) := by
  cases e with
  | none => exact .nil
  | some e => exact e.sites_respell h hw

theorem Occurrence.sitesOption_respell (h : Site.Respells r p p') (use : Option Occurrence)
    (hw : ∀ t ∈ Occurrence.wordsOption use, r.Fits t) :
    List.Forall₂ (Site.Pairs r) (Occurrence.sitesOption p use)
      (Occurrence.sitesOption p' (use.map (Occurrence.respell r))) := by
  cases use with
  | none => exact .nil
  | some use => exact .cons ⟨h, rfl, hw⟩ .nil

/-! ## Statements -/

mutual

/-- **The sites of a statement of the other text.** -/
theorem Stmt.sites_respell {p p' : Site} (h : Site.Respells r p p')
    (hb : ∀ c, p.regions.head? ≠ some (.this c)) :
    (s : Stmt) → s.Regular → (∀ t ∈ s.words, r.Fits t) →
    List.Forall₂ (Site.Pairs r) (s.sites p) ((s.respell r).sites p')
  | .expression e, _, hw | .print e, _, hw => .cons ⟨h, rfl, nofun⟩ (e.sites_respell h hw)
  | .var name initializer, _, hw => by
    obtain ⟨hname, hw⟩ := List.forall_mem_cons.mp hw
    rw [Stmt.respell, Stmt.sites, Stmt.sites]
    exact .cons ⟨h, rfl, nofun⟩ (.cons ⟨h, rfl, List.forall_mem_singleton.mpr hname⟩
      (Expr.sitesOption_respell (h.initializing hname) initializer hw))
  | .block body, hr, hw => by
    cases hr with
    | block hbody =>
      rw [Stmt.respell, Stmt.sites, Stmt.sites]
      exact .cons ⟨h, rfl, nofun⟩ (Stmt.sitesAll_respell
        (h.enter (.block body) (fun _ => rfl) (fun _ => rfl)) nofun body hbody hw)
  | .ifElse condition thenBranch elseBranch, hr, hw => by
    cases hr with
    | ifElse _ hthen _ helse _ =>
      obtain ⟨hw, hw₃⟩ := List.forall_mem_append.mp hw
      obtain ⟨hw₁, hw₂⟩ := List.forall_mem_append.mp hw
      rw [Stmt.respell, Stmt.sites, Stmt.sites]
      exact .cons ⟨h, rfl, nofun⟩ (List.rel_append (List.rel_append (condition.sites_respell h hw₁)
        (thenBranch.sites_respell h hb hthen hw₂))
        (Stmt.sitesOption_respell h hb elseBranch helse hw₃))
  | .whileLoop condition body, hr, hw => by
    cases hr with
    | whileLoop _ hbody _ =>
      obtain ⟨hw₁, hw₂⟩ := List.forall_mem_append.mp hw
      rw [Stmt.respell, Stmt.sites, Stmt.sites]
      exact .cons ⟨h, rfl, nofun⟩ (List.rel_append (condition.sites_respell h hw₁)
        (body.sites_respell h.enterLoop hb hbody hw₂))
  | .forLoop initializer condition increment body, hr, hw => by
    cases hr with
    | forLoop hinit _ _ _ hbody _ =>
      obtain ⟨hw, hw₄⟩ := List.forall_mem_append.mp hw
      obtain ⟨hw, hw₃⟩ := List.forall_mem_append.mp hw
      obtain ⟨hw₁, hw₂⟩ := List.forall_mem_append.mp hw
      have hinner := h.enter (.clauses initializer condition increment body) (fun _ => rfl)
        (fun _ => rfl)
      have hbehind : Site.Respells r
          ((p.enter (.clauses initializer condition increment body) []).afterOption initializer)
          ((p'.enter (.clauses (Stmt.respellOption r initializer) (condition.map (Expr.respell r))
            (increment.map (Expr.respell r)) (body.respell r)) []).afterOption
            (Stmt.respellOption r initializer)) := by
        cases initializer with
        | none => exact hinner
        | some s => exact hinner.after (hinit s rfl) hw₁
      have hb' : ∀ c, ((p.enter (.clauses initializer condition increment body) []).afterOption
          initializer).regions.head? ≠ some (.this c) := by
        rw [Site.regions_afterOption]
        exact nofun
      rw [Stmt.respell, Stmt.sites, Stmt.sites]
      exact .cons ⟨h, rfl, nofun⟩ (List.rel_append (List.rel_append (List.rel_append
        (Stmt.sitesOption_respell hinner nofun initializer hinit hw₁)
        (Expr.sitesOption_respell hbehind condition hw₂))
        (Expr.sitesOption_respell hbehind increment hw₃))
        (body.sites_respell hbehind.enterLoop hb' hbody hw₄))
  | .function declaration, hr, hw => by
    cases hr with
    | function hf =>
      obtain ⟨hname, hbody⟩ := List.forall_mem_cons.mp hw
      have hafter := h.after (s := .function declaration) (.function hf) hw
      have hkind : Region.functionKind (.function (declaration.respell r (declaration.name.respell r)) ::
            (p'.after ((Stmt.function declaration).respell r)).regions) =
          Region.functionKind (.function declaration :: (p.after (.function declaration)).regions) := by
        rw [Site.regions_after, Site.regions_after, Region.functionKind_function hb,
          Region.functionKind_function (h.head?_ne_this hb)]
      rw [Stmt.respell, Stmt.sites, Stmt.sites]
      refine .cons ⟨h, rfl, nofun⟩ (.cons ⟨h, ?_, List.forall_mem_singleton.mpr hname⟩ ?_)
      · rw [Function.name_respell]
        rfl
      · exact declaration.sites_respell .function hafter hf hbody hkind
  | .class declaration, hr, hw => by
    cases hr with
    | «class» hc =>
      rw [Stmt.respell, Stmt.sites, Stmt.sites]
      refine .cons ⟨h, rfl, fun t ht => hw t ?_⟩ (declaration.sites_respell h hc hw)
      obtain ⟨name, superclass, methods, span⟩ := declaration
      rcases List.mem_cons.mp ht with rfl | ht
      · exact List.mem_cons_self
      · exact List.mem_cons_of_mem _ (List.mem_append_left _ ht)
  | .return _ value, _, hw => by
    rw [Stmt.respell, Stmt.sites, Stmt.sites]
    exact .cons ⟨h, rfl, nofun⟩ (.cons ⟨h, rfl, nofun⟩ (Expr.sitesOption_respell h value hw))
  | .break _, _, _ | .continue _, _, _ => .cons ⟨h, rfl, nofun⟩ (.cons ⟨h, rfl, nofun⟩ .nil)

theorem Stmt.sitesAll_respell {p p' : Site} (h : Site.Respells r p p')
    (hb : ∀ c, p.regions.head? ≠ some (.this c)) :
    (ss : List Stmt) → (∀ s ∈ ss, s.Regular) → (∀ t ∈ Stmt.wordsAll ss, r.Fits t) →
    List.Forall₂ (Site.Pairs r) (Stmt.sitesAll p ss) (Stmt.sitesAll p' (Stmt.respellAll r ss))
  | [], _, _ => .nil
  | s :: rest, hr, hw => by
    obtain ⟨hs, hrest⟩ := List.forall_mem_cons.mp hr
    obtain ⟨hw₁, hw₂⟩ := List.forall_mem_append.mp hw
    rw [Stmt.respellAll, Stmt.sitesAll, Stmt.sitesAll]
    refine List.rel_append (s.sites_respell h hb hs hw₁)
      (Stmt.sitesAll_respell (h.after hs hw₁) ?_ rest hrest hw₂)
    rwa [p.regions_after s]

theorem Stmt.sitesOption_respell {p p' : Site} (h : Site.Respells r p p')
    (hb : ∀ c, p.regions.head? ≠ some (.this c)) :
    (s : Option Stmt) → (∀ t ∈ s, Stmt.Regular t) → (∀ t ∈ Stmt.wordsOption s, r.Fits t) →
    List.Forall₂ (Site.Pairs r) (Stmt.sitesOption p s)
      (Stmt.sitesOption p' (Stmt.respellOption r s))
  | none, _, _ => .nil
  | some s, hr, hw => s.sites_respell h hb (hr s rfl) hw

theorem Function.sites_respell (kind : FunctionKind) {p p' : Site} {name : Token}
    (h : Site.Respells r p p') :
    (f : Function) → f.Regular → (∀ t ∈ f.words, r.Fits t) →
    Region.functionKind (.function (f.respell r name) :: p'.regions) =
      Region.functionKind (.function f :: p.regions) →
    List.Forall₂ (Site.Pairs r) (f.sites kind p) ((f.respell r name).sites kind p')
  | ⟨fname, params, body, span⟩, hr, hw, hkind => by
    cases hr with
    | mk _ hparams hbody =>
      obtain ⟨hw₁, hw₂⟩ := List.forall_mem_append.mp hw
      have hinner := h.enterFunction kind (f := ⟨fname, params, body, span⟩) hparams hw₁ hkind
      rw [Function.respell, Function.sites, Function.sites]
      refine List.rel_append ?_ (Stmt.sitesAll_respell hinner nofun body hbody hw₂)
      rw [List.map_map, show Mark.name ∘ Token.respell r = Mark.respell r ∘ Mark.name from rfl,
        ← List.map_map]
      refine hinner.mark fun m hm t ht => ?_
      obtain ⟨u, hu, rfl⟩ := List.mem_map.mp hm
      exact List.mem_singleton.mp ht ▸ hw₁ u hu

theorem Function.sitesMethods_respell {p p' : Site} {c : Class} (h : Site.Respells r p p')
    (hc : p.regions.head? = some (.this c)) (hc' : p'.regions.head? = some (.this (c.respell r))) :
    (fs : List Function) → (∀ f ∈ fs, f.Regular) → (∀ t ∈ Function.wordsAll fs, r.Fits t) →
    List.Forall₂ (Site.Pairs r) (Function.sitesMethods p fs)
      (Function.sitesMethods p' (Function.respellMethods r fs))
  | [], _, _ => .nil
  | f :: rest, hr, hw => by
    obtain ⟨hf, hrest⟩ := List.forall_mem_cons.mp hr
    obtain ⟨hw₁, hw₂⟩ := List.forall_mem_append.mp hw
    have hmethod : (f.respell r (f.name.relocate r.places)).methodKind = f.methodKind := by
      rw [Function.methodKind, Function.methodKind, ← Function.respellMethod,
        Function.isInitializer_respellMethod]
    obtain ⟨outer, houter⟩ : ∃ outer, p.regions = .this c :: outer := by
      cases hp : p.regions with
      | nil => simp [hp] at hc
      | cons region outer => exact ⟨outer, by simpa [hp] using hc⟩
    obtain ⟨outer', houter'⟩ : ∃ outer, p'.regions = .this (c.respell r) :: outer := by
      cases hp : p'.regions with
      | nil => simp [hp] at hc'
      | cons region outer => exact ⟨outer, by simpa [hp] using hc'⟩
    rw [Function.respellMethods, Function.sitesMethods, Function.sitesMethods, hmethod]
    refine List.rel_append (f.sites_respell f.methodKind h hf hw₁ ?_)
      (Function.sitesMethods_respell h hc hc' rest hrest hw₂)
    rw [houter, houter']
    exact hmethod

theorem Class.sites_respell {p p' : Site} (h : Site.Respells r p p') :
    (c : Class) → c.Regular → (∀ t ∈ c.words, r.Fits t) →
    List.Forall₂ (Site.Pairs r) (c.sites p) ((c.respell r).sites p')
  | ⟨name, superclass, methods, span⟩, hr, hw => by
    cases hr with
    | mk hname _ hmethods =>
      obtain ⟨hw₁, hw⟩ := List.forall_mem_cons.mp hw
      obtain ⟨hw₂, hw₃⟩ := List.forall_mem_append.mp hw
      rw [Class.respell, Class.sites, Class.sites]
      exact .cons ⟨h, rfl, List.forall_mem_singleton.mpr hw₁⟩ (List.rel_append
        (Occurrence.sitesOption_respell h superclass hw₂)
        (Function.sitesMethods_respell
          (h.enterClass (c := ⟨name, superclass, methods, span⟩) hw₁ hname) rfl rfl methods
          hmethods hw₃))

end

end

/-! ## Programs -/

theorem exists_of_mem_right {α β : Type} {R : α → β → Prop} {xs : List α} {ys : List β} {y : β}
    (h : List.Forall₂ R xs ys) (hy : y ∈ ys) : ∃ x ∈ xs, R x y := by
  induction h with
  | nil => cases hy
  | cons hxy _ ih =>
    rcases List.mem_cons.mp hy with rfl | hy
    · exact ⟨_, List.mem_cons_self, hxy⟩
    · obtain ⟨x, hx, hxy⟩ := ih hy
      exact ⟨x, List.mem_cons_of_mem _ hx, hxy⟩

theorem exists_of_mem_left {α β : Type} {R : α → β → Prop} {xs : List α} {ys : List β} {x : α}
    (h : List.Forall₂ R xs ys) (hx : x ∈ xs) : ∃ y ∈ ys, R x y :=
  exists_of_mem_right h.flip hx

section

variable {r : Respelling} {program : List Stmt} (ho : Orderly program)
  (hfits : ∀ t ∈ Stmt.wordsAll program, r.Fits t)

include ho hfits

/-- **The sites of the other text stand for those of the program.** -/
theorem programSites_respell :
    List.Forall₂ (Site.Pairs r) (programSites program) (programSites (Stmt.respellAll r program)) :=
  Stmt.sitesAll_respell .start nofun program ho.regular hfits

/-- What a scope around a site of a program declares changes as it should. -/
theorem fits_declarations {x : Site × Mark} (hx : x ∈ programSites program) {region : Region}
    (hregion : region ∈ x.1.regions) {t : Token} (ht : t ∈ region.declarations program) :
    r.Fits t := by
  obtain ⟨q, hq, -⟩ := (holds_programSites ho x hx).placed region hregion t ht
  obtain ⟨_, -, hpair⟩ := exists_of_mem_left (programSites_respell ho hfits) hq
  exact hpair.fits t List.mem_cons_self

/-- A name that is declared twice in the other text is declared twice in the program. -/
theorem exists_redeclared {p p' : Site} {m : Mark} {region' : Region} {t' u' : Token}
    (hp : Site.Respells r p p') (hx : (p, m) ∈ programSites program)
    (hhead : p'.regions.head? = some region')
    (ht : t' ∈ region'.declarations (Stmt.respellAll r program))
    (hu : u' ∈ region'.declarations (Stmt.respellAll r program)) (hname : u'.lexeme = t'.lexeme)
    (hlt : u'.id < t'.id) : ∃ y ∈ programSites program, ∃ v, y.1.Breaks program y.2 v := by
  obtain ⟨region, hmem, hregion⟩ := exists_of_mem_right hp.regions (List.mem_of_head? hhead)
  rw [hregion.declarations] at ht hu
  obtain ⟨t, hdecl, rfl⟩ := List.mem_map.mp ht
  obtain ⟨u, hdecl', rfl⟩ := List.mem_map.mp hu
  have hsame := (fits_declarations ho hfits hx hmem hdecl').respelled_inj
    (fits_declarations ho hfits hx hmem hdecl) hname
  obtain ⟨q, hq, hhead⟩ := (holds_programSites ho _ hx).placed region hmem t hdecl
  exact ⟨_, hq, _, .redeclared hhead hdecl hdecl' hsame.1 hlt⟩

/-- **A rule that is broken in the other text is broken in the program.** -/
theorem Site.Pairs.breaks {x x' : Site × Mark} {v : Violation} (hpair : Site.Pairs r x x')
    (hx : x ∈ programSites program) (h : x'.1.Breaks (Stmt.respellAll r program) x'.2 v) :
    ∃ y ∈ programSites program, ∃ v, y.1.Breaks program y.2 v := by
  obtain ⟨p, m⟩ := x
  obtain ⟨p', m'⟩ := x'
  obtain ⟨hp, rfl, htokens⟩ := hpair
  have hkind := hp.functionKind
  have hclass := hp.class?
  cases m with
  | name token =>
    cases h with
    | redeclared hhead ht hu hname hlt => exact exists_redeclared ho hfits hp hx hhead ht hu hname hlt
  | read use =>
    cases h with
    | ownInitializer hname hopening =>
      obtain ⟨o, ho, hopen, hopen'⟩ := hp.opening
      rw [hopen'] at hopening
      obtain ⟨t, rfl, he⟩ := Option.map_eq_some_iff.mp hopening
      have hsame := (ho t rfl).respelled_inj (htokens use.name List.mem_cons_self) he
      exact ⟨_, hx, _, .ownInitializer hname (hopen.trans (congrArg some hsame.1))⟩
    | thisOutside hword hnone =>
      rw [hclass, Option.map_eq_none_iff] at hnone
      exact ⟨_, hx, _, .thisOutside hword hnone⟩
  | super keyword =>
    cases h with
    | superOutside hnone =>
      rw [hclass, Option.map_eq_none_iff] at hnone
      exact ⟨_, hx, _, .superOutside hnone⟩
    | superWithout hsome hsuper =>
      rw [hclass] at hsome
      obtain ⟨c, hc, rfl⟩ := Option.map_eq_some_iff.mp hsome
      rw [Class.superclass_respell, Option.map_eq_none_iff] at hsuper
      exact ⟨_, hx, _, .superWithout hc hsuper⟩
  | statement s =>
    cases s with
    | «class» c =>
      obtain ⟨use', hsuper, hname, -⟩ := Site.breaks_class.mp h
      rw [Class.superclass_respell] at hsuper
      obtain ⟨use, huse, rfl⟩ := Option.map_eq_some_iff.mp hsuper
      have hfit : r.Fits use.name := htokens use.name (List.mem_cons_of_mem _ (by
        rw [huse]
        exact List.mem_cons_self))
      rw [Class.name_respell] at hname
      have hsame := hfit.respelled_inj (htokens c.name List.mem_cons_self) hname
      exact ⟨_, hx, _, .inheritsFromItself huse hsame.1⟩
    | «return» keyword value =>
      rcases Site.breaks_return.mp h with ⟨hnone, -⟩ | ⟨⟨hvalue, hinit⟩, -⟩
      · rw [← Region.functionKind_eq_none, hkind, Region.functionKind_eq_none] at hnone
        exact ⟨_, hx, _, .returnOutside hnone⟩
      · rw [Site.InInitializer, ← Region.functionKind_eq_initializer, hkind,
          Region.functionKind_eq_initializer] at hinit
        exact ⟨_, hx, _, Site.breaks_return.mpr (.inr ⟨⟨by simpa using hvalue, hinit⟩, rfl⟩)⟩
    | «break» keyword =>
      have hzero := (Site.breaks_break.mp h).1
      exact ⟨_, hx, _, .breakOutside (hp.loopDepth.symm.trans hzero)⟩
    | «continue» keyword =>
      have hzero := (Site.breaks_continue.mp h).1
      exact ⟨_, hx, _, .continueOutside (hp.loopDepth.symm.trans hzero)⟩
    | _ => cases h
  | _ => cases h

end

/-- **A program without errors has none in another spelling.** -/
theorem noError_respell {r : Respelling} {program : List Stmt} (ho : Orderly program)
    (ho' : Orderly (Stmt.respellAll r program)) (hfits : ∀ t ∈ Stmt.wordsAll program, r.Fits t)
    (h : (resolve program).hasError = false) :
    (resolve (Stmt.respellAll r program)).hasError = false := by
  rw [noError_iff ho] at h
  rw [noError_iff ho']
  intro x' hx' v hv
  obtain ⟨x, hx, hpair⟩ := exists_of_mem_right (programSites_respell ho hfits) hx'
  obtain ⟨y, hy, v, hbroken⟩ := hpair.breaks ho hfits hx hv
  exact h y hy v hbroken

end Lox
