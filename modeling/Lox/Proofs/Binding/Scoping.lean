import Lox.Proofs.Binding.Legal
import Lox.Proofs.Binding.Lexical

/-!
# Walks of the resolver over parts of a program

* `Within`: words with rising numbers in a range; `Context.Fresh`: nothing is known of certain words
  and occurrences yet;
* `Ready`: a context in front of a part of a program, `Walked`: what the walk over the part does;
* `Ready.append`: walks that follow one another, `Ready.enter`, `Walked.leave`: walks over a scope;
* **`Ready.use`**, **`Ready.introduce`**: a use and a declaration are walked this way.
-/

namespace Lox

open Context

/-! ## Words in a range -/

/-- The words have rising numbers, from `b` on and below `e`. -/
structure Within (b e : TokenId) (ws : List Token) : Prop where
  le : b ≤ e
  rising : ws.Pairwise fun t u => t.id < u.id
  first_le : ∀ t ∈ ws, b ≤ t.id
  lt_last : ∀ t ∈ ws, t.id < e

theorem Within.split {b e : TokenId} {us vs : List Token} (h : Within b e (us ++ vs)) :
    ∃ m, Within b m us ∧ Within m e vs := by
  obtain ⟨hus, hvs, hlt⟩ := List.pairwise_append.mp h.rising
  have hfirst (t : Token) (ht : t ∈ us) := h.first_le t (List.mem_append_left vs ht)
  have hlast (t : Token) (ht : t ∈ vs) := h.lt_last t (List.mem_append_right us ht)
  cases vs with
  | nil =>
    refine ⟨e, ⟨h.le, hus, hfirst, fun t ht => h.lt_last t (List.mem_append_left _ ht)⟩,
      ⟨Nat.le_refl _, hvs, by simp, by simp⟩⟩
  | cons v vs =>
    have hv := h.first_le v (List.mem_append_right us List.mem_cons_self)
    refine ⟨v.id, ⟨hv, hus, hfirst, fun t ht => hlt t ht v List.mem_cons_self⟩,
      ⟨Nat.le_of_lt (hlast v List.mem_cons_self), hvs, fun t ht => ?_, hlast⟩⟩
    rcases List.mem_cons.mp ht with rfl | ht
    · exact Nat.le_refl _
    · exact Nat.le_of_lt (List.rel_of_pairwise_cons hvs ht)

namespace Context

/-- Nothing is known yet of occurrences and words with different numbers. -/
structure Fresh (ids : List ExprId) (ws : List Token) (c : Context) : Prop where
  new : New ids c
  distinct : (ws.map Token.id).Nodup
  free : ∀ t ∈ ws, c.symbols.used[t.id]? = none

namespace Fresh

variable {xs ys : List ExprId} {us vs : List Token} {c c₁ : Context}

theorem left (h : Fresh (xs ++ ys) (us ++ vs) c) : Fresh xs us c := by
  refine ⟨h.new.left, ?_, fun t ht => h.free t (List.mem_append_left vs ht)⟩
  have := h.distinct
  rw [List.map_append] at this
  exact (List.nodup_append.mp this).1

theorem swap (h : Fresh (xs ++ ys) (us ++ vs) c) : Fresh (ys ++ xs) (vs ++ us) c := by
  refine ⟨h.new.perm List.perm_append_comm, ?_, fun t ht => h.free t ?_⟩
  · exact (List.perm_append_comm.map Token.id).nodup_iff.mp h.distinct
  · exact List.perm_append_comm.mem_iff.mp ht

theorem apart (h : Fresh (xs ++ ys) (us ++ vs) c) :
    ∀ id ∈ vs.map Token.id, id ∉ us.map Token.id := by
  intro id hv hu
  have := h.distinct
  rw [List.map_append] at this
  exact (List.nodup_append.mp this).2.2 id hu id hv rfl

theorem right (h : Fresh (xs ++ ys) (us ++ vs) c) (hg : Grows xs c c₁)
    (hk : SymbolGraph.Kept (us.map Token.id) c.symbols c₁.symbols) : Fresh ys vs c₁ := by
  refine ⟨h.new.right hg, h.swap.left.distinct, fun t ht => ?_⟩
  rw [hk.used t.id (h.apart t.id (List.mem_map_of_mem ht))]
  exact h.free t (List.mem_append_right us ht)

end Fresh

end Context

/-! ## What was found -/

/-- Behind `c`, nothing changed for the given occurrences and words. -/
structure Later (ids : List ExprId) (ws : List TokenId) (c c' : Context) : Prop where
  distances : ∀ id ∈ ids, c'.distances[id]? = c.distances[id]?
  used : ∀ id ∈ ws, c'.symbols.used[id]? = c.symbols.used[id]?
  tokens : c.symbols.tokens <+: c'.symbols.tokens

theorem Later.trans {ids : List ExprId} {ws : List TokenId} {c c₁ c₂ : Context}
    (h₁ : Later ids ws c c₁) (h₂ : Later ids ws c₁ c₂) : Later ids ws c c₂ :=
  ⟨fun id hid => (h₂.distances id hid).trans (h₁.distances id hid),
    fun id hid => (h₂.used id hid).trans (h₁.used id hid), h₁.tokens.trans h₂.tokens⟩

theorem Later.mono {ids ids' : List ExprId} {ws ws' : List TokenId} {c c' : Context}
    (h : Later ids ws c c') (hids : ∀ id ∈ ids', id ∈ ids) (hws : ∀ id ∈ ws', id ∈ ws) :
    Later ids' ws' c c' :=
  ⟨fun id hid => h.distances id (hids id hid), fun id hid => h.used id (hws id hid), h.tokens⟩

theorem Later.of_apart {xs ys : List ExprId} {us vs : List TokenId} {c c' : Context}
    (hg : Grows ys c c') (hk : SymbolGraph.Kept vs c.symbols c'.symbols)
    (hids : ∀ id ∈ ys, id ∉ xs) (hws : ∀ id ∈ vs, id ∉ us) : Later xs us c c' :=
  ⟨fun id hid => hg.distances id fun hy => hids id hy hid,
    fun id hid => hk.used id fun hv => hws id hv hid, hk.tokens⟩

/-- The uses at the sites were found where the text says, and this lasts. -/
def Traced (program : List Stmt) (ids : List ExprId) (ws : List TokenId)
    (sites : List (Site × Mark)) (c : Context) : Prop :=
  ∀ c', Later ids ws c c' → ∀ x ∈ sites, ∀ use ∈ x.2.occurrence?, x.1.Admits use.name →
    x.1.Located program c'.distances use ∧
      (use.name.IsName → x.1.Refers program c'.distances c'.symbols use)

section Uses

variable {program : List Stmt} {c c' : Context} {p q : Site} {use : Occurrence}

theorem Site.Located.later (h : p.Located program c.distances use) (hq : q.regions = p.regions)
    (hl : Later [use.id] [use.name.id] c c') : q.Located program c'.distances use := by
  have hd := hl.distances use.id List.mem_cons_self
  constructor
  · intro d
    rw [hd, hq]
    exact h.distance d
  · rw [hd, hq]
    exact h.missing

theorem Site.Refers.later (h : p.Refers program c.distances c.symbols use)
    (hq : q.regions = p.regions) (ho : q.opening = p.opening)
    (hl : Later [use.id] [use.name.id] c c') : q.Refers program c'.distances c'.symbols use := by
  have hd := hl.distances use.id List.mem_cons_self
  have hu := hl.used use.name.id List.mem_cons_self
  constructor
  · intro d hdist hopen
    rw [hd] at hdist
    rw [ho] at hopen
    obtain ⟨r, t, hr, hbinds, hlinks⟩ := h.declaration d hdist hopen
    exact ⟨r, t, hq ▸ hr, hbinds, hlinks.later hu hl.tokens⟩
  · intro hdist
    rw [hd] at hdist
    rw [hu]
    exact h.missing hdist
  · intro hopen
    rw [hu]
    exact h.opening (ho ▸ hopen)

end Uses

/-! ## Walks -/

/-- The scope behind further declarations. -/
def Layer.pass (l : Layer) (ts : List Token) : Layer := { l with held := ts.reverse ++ l.held }

/-- In front of a part of a program stands a context in which nothing is known of the words and
occurrences of the part; of its words the tokens `coming` are declared in the innermost scope. -/
structure Ready (program : List Stmt) (p : Site) (b e : TokenId) (coming : List Token) (l : Layer)
    (ls : List Layer) (ids : List ExprId) (ws : List Token) (c : Context) : Prop where
  regions : (l :: ls).map Layer.region = p.regions
  opening : p.opening = l.opening.map Token.lexeme
  closed : ∀ k ∈ ls, k.opening = none
  innermost : l.Spans program b e coming
  outer : ∀ k ∈ ls, k.Spans program b e []
  stands : c.Stands (l :: ls)
  classKind : c.classKind = p.classKind
  within : Within b e ws
  fresh : c.Fresh ids ws

/-- A walk leads over a part of a program, and finds its uses where the text says. -/
structure Walked (program : List Stmt) (coming : List Token) (l : Layer) (ls : List Layer)
    (ids : List ExprId) (ws : List Token) (sites : List (Site × Mark)) (c c' : Context) : Prop where
  grows : Grows ids c c'
  kept : SymbolGraph.Kept (ws.map Token.id) c.symbols c'.symbols
  traced : Traced program ids (ws.map Token.id) sites c'
  stands : c'.Stands (l.pass coming :: ls)
  classKind : c'.classKind = c.classKind

/-- Sites with the same scopes around them, in the same class and initializer. -/
structure Site.Beside (p q : Site) : Prop where
  regions : q.regions = p.regions
  opening : q.opening = p.opening
  classKind : q.classKind = p.classKind

namespace Ready

variable {program : List Stmt} {p q : Site} {b e : TokenId} {cs ds : List Token} {l : Layer}
  {ls : List Layer} {xs ys : List ExprId} {us vs : List Token} {c c₁ c₂ : Context}
  {s₁ s₂ : List (Site × Mark)}

theorem first (h : Ready program p b e (cs ++ ds) l ls (xs ++ ys) (us ++ vs) c) {m : TokenId}
    (hu : Within b m us) (hv : Within m e vs) (hds : ∀ t ∈ ds, t ∈ vs) :
    Ready program p b m cs l ls xs us c where
  regions := h.regions
  opening := h.opening
  closed := h.closed
  innermost := by
    obtain ⟨after, hdecl, hafter⟩ := h.innermost.declarations
    refine ⟨⟨ds ++ after, by rw [hdecl]; simp, fun t ht => ?_⟩, h.innermost.before,
      h.innermost.falling⟩
    rcases List.mem_append.mp ht with ht | ht
    · exact hv.first_le t (hds t ht)
    · exact Nat.le_trans hv.le (hafter t ht)
  outer := fun k hk => by
    obtain ⟨after, hdecl, hafter⟩ := (h.outer k hk).declarations
    exact ⟨⟨after, hdecl, fun t ht => Nat.le_trans hv.le (hafter t ht)⟩, (h.outer k hk).before,
      (h.outer k hk).falling⟩
  stands := h.stands
  classKind := h.classKind
  within := hu
  fresh := h.fresh.left

theorem second (h : Ready program p b e (cs ++ ds) l ls (xs ++ ys) (us ++ vs) c) {m : TokenId}
    (hu : Within b m us) (hv : Within m e vs) (hcs : cs.Sublist us) (hopen : cs = [] ∨ l.opening = none)
    (hq : p.Beside q) (hw : Walked program cs l ls xs us s₁ c c₁) :
    Ready program q m e ds (l.pass cs) ls ys vs c₁ where
  regions := h.regions.trans hq.regions.symm
  opening := hq.opening.trans h.opening
  closed := h.closed
  innermost := by
    obtain ⟨after, hdecl, hafter⟩ := h.innermost.declarations
    have hpassed : (l.pass cs).passed = cs.reverse ++ l.passed := by
      rcases hopen with rfl | ho
      · rfl
      · simp [Layer.passed, Layer.pass, ho]
    refine ⟨⟨after, ?_, hafter⟩, fun t ht => ?_, ?_⟩
    · rw [hpassed]
      show l.region.declarations program = _
      rw [hdecl]
      simp
    · rw [hpassed, List.mem_append, List.mem_reverse] at ht
      rcases ht with ht | ht
      · exact hu.lt_last t (hcs.subset ht)
      · exact Nat.lt_of_lt_of_le (h.innermost.before t ht) hu.le
    · rw [hpassed, List.pairwise_append]
      refine ⟨List.pairwise_reverse.mpr (hu.rising.sublist hcs), h.innermost.falling, ?_⟩
      intro t ht u hu'
      exact Nat.lt_of_lt_of_le (h.innermost.before u hu')
        (hu.first_le t (hcs.subset (List.mem_reverse.mp ht)))
  outer := fun k hk => by
    obtain ⟨after, hdecl, hafter⟩ := (h.outer k hk).declarations
    exact ⟨⟨after, hdecl, hafter⟩, fun t ht => Nat.lt_of_lt_of_le ((h.outer k hk).before t ht) hu.le,
      (h.outer k hk).falling⟩
  stands := hw.stands
  classKind := by rw [hw.classKind, h.classKind, hq.classKind]
  within := hv
  fresh := h.fresh.right hw.grows hw.kept

end Ready

namespace Traced

variable {program : List Stmt} {xs ys : List ExprId} {us vs : List TokenId}
  {s₁ s₂ : List (Site × Mark)} {c c₁ c₂ : Context}

theorem of_silent (h : ∀ x ∈ s₁, x.2.occurrence? = none) : Traced program xs us s₁ c := by
  intro _ _ x hx use huse
  rw [h x hx] at huse
  cases huse

theorem later (h : Traced program xs us s₁ c) (hl : Later xs us c c₁) :
    Traced program xs us s₁ c₁ := fun c' hc' => h c' (hl.trans hc')

theorem mono (h : Traced program xs us s₁ c) (hids : ∀ id ∈ xs, id ∈ ys) (hws : ∀ id ∈ us, id ∈ vs) :
    Traced program ys vs s₁ c := fun c' hc' => h c' (hc'.mono hids hws)

theorem append (h₁ : Traced program xs us s₁ c) (h₂ : Traced program xs us s₂ c) :
    Traced program xs us (s₁ ++ s₂) c := fun c' hc' _ hx =>
  (List.mem_append.mp hx).elim (h₁ c' hc' _) (h₂ c' hc' _)

theorem marks (h : Traced program xs us s₁ c)
    (hs : ∀ x ∈ s₂, x.2.occurrence? ≠ none → x ∈ s₁) : Traced program xs us s₂ c := by
  intro c' hc' x hx use huse
  refine h c' hc' x (hs x hx fun hn => ?_) use huse
  rw [hn] at huse
  cases huse

end Traced

theorem Layer.pass_append (l : Layer) (cs ds : List Token) :
    (l.pass cs).pass ds = l.pass (cs ++ ds) := by
  simp [Layer.pass]

namespace Walked

variable {program : List Stmt} {cs ds : List Token} {l : Layer} {ls : List Layer}
  {xs ys : List ExprId} {us vs : List Token} {s₁ s₂ : List (Site × Mark)} {c c₁ c₂ : Context}

/-- **Walks that follow one another.** -/
theorem append (h₁ : Walked program cs l ls xs us s₁ c c₁)
    (h₂ : Walked program ds (l.pass cs) ls ys vs s₂ c₁ c₂) (hf : c.Fresh (xs ++ ys) (us ++ vs)) :
    Walked program (cs ++ ds) l ls (xs ++ ys) (us ++ vs) (s₁ ++ s₂) c c₂ where
  grows := h₁.grows.append h₂.grows
  kept := by
    rw [List.map_append]
    exact h₁.kept.append h₂.kept
  traced := by
    have hlater := Later.of_apart h₂.grows h₂.kept hf.new.disjoint hf.apart
    rw [List.map_append]
    exact ((h₁.traced.later hlater).mono (fun _ => List.mem_append_left ys)
        fun _ => List.mem_append_left _).append
      (h₂.traced.mono (fun _ => List.mem_append_right xs) fun _ => List.mem_append_right _)
  stands := by
    rw [← Layer.pass_append]
    exact h₂.stands
  classKind := h₂.classKind.trans h₁.classKind

theorem marks (h : Walked program cs l ls xs us s₁ c c₁)
    (hs : ∀ x ∈ s₂, x.2.occurrence? ≠ none → x ∈ s₁) : Walked program cs l ls xs us s₂ c c₁ :=
  ⟨h.grows, h.kept, h.traced.marks hs, h.stands, h.classKind⟩

theorem mono (h : Walked program cs l ls xs us s₁ c c₁) (hids : ∀ id ∈ xs, id ∈ ys)
    (hws : ∀ t ∈ us, t ∈ vs) : Walked program cs l ls ys vs s₁ c c₁ :=
  have hnumbers : ∀ id ∈ us.map Token.id, id ∈ vs.map Token.id := fun _ hid =>
    let ⟨t, ht, he⟩ := List.mem_map.mp hid
    List.mem_map.mpr ⟨t, hws t ht, he⟩
  ⟨h.grows.widen hids, h.kept.widen hnumbers, h.traced.mono hids hnumbers, h.stands, h.classKind⟩

theorem withClassKind (h : Walked program cs l ls xs us s₁ c c₁) (kind : ClassKind) :
    Walked program cs l ls xs us s₁ { c with classKind := kind } { c₁ with classKind := kind } :=
  ⟨⟨h.grows.complaints, h.grows.errors, h.grows.distances⟩, h.kept,
    fun c' hl => h.traced c' ⟨hl.distances, hl.used, hl.tokens⟩, ⟨h.stands.scopes, h.stands.known⟩, rfl⟩

theorem ofClassKind (kind : ClassKind) (h : Walked program cs l ls xs us s₁
      { c with classKind := kind } { c₁ with classKind := kind })
    (hk : c₁.classKind = c.classKind) : Walked program cs l ls xs us s₁ c c₁ :=
  ⟨⟨h.grows.complaints, h.grows.errors, h.grows.distances⟩, h.kept,
    fun c' hl => h.traced c' ⟨hl.distances, hl.used, hl.tokens⟩, ⟨h.stands.scopes, h.stands.known⟩, hk⟩

theorem mark (h : Walked program cs l ls xs us s₁ c c₁) {p : Site} {m : Mark}
    (hm : m.occurrence? = none) : Walked program cs l ls xs us ((p, m) :: s₁) c c₁ :=
  h.marks fun _ hx hne => (List.mem_cons.mp hx).resolve_left fun he => hne (he ▸ hm)

end Walked

/-! ## Steps that find nothing -/

/-- Between two contexts only complaints, the function around or the open loops changed. -/
structure Context.Step (c c' : Context) : Prop where
  grows : Grows [] c c'
  scopes : c'.scopes = c.scopes
  symbols : c'.symbols = c.symbols
  classKind : c'.classKind = c.classKind

namespace Context

variable {c c' : Context}

theorem step_check (broken : Bool) (problem : StaticProblem) (place : Token) :
    Step c (c.check broken problem place) := by
  refine ⟨grows_check _ _ _, (alike_check _ _ _).scopes, ?_, (alike_check _ _ _).classKind⟩
  unfold check
  split <;> rfl

theorem step_complain (problem : StaticProblem) (place : Token) :
    Step c (c.complain problem place) := ⟨grows_complain _ _, rfl, rfl, rfl⟩

theorem step_enterLoop : Step c c.enterLoop := ⟨grows_enterLoop, rfl, rfl, rfl⟩

theorem step_leaveLoop : Step c c.leaveLoop := ⟨grows_leaveLoop, rfl, rfl, rfl⟩

theorem kept_use (use : Occurrence) :
    SymbolGraph.Kept [use.name.id] c.symbols (c.use use).symbols := by
  unfold Context.use
  split
  · exact .refl
  · split
    · exact SymbolGraph.kept_refer _ List.mem_cons_self
    · exact .refl

theorem Step.kept (h : Step c c') {ws : List TokenId} :
    SymbolGraph.Kept ws c.symbols c'.symbols := by
  rw [h.symbols]
  exact .refl

theorem Stands.kept {layers : List Layer} {ws : List TokenId} (h : c.Stands layers)
    (hs : c'.scopes = c.scopes) (hk : SymbolGraph.Kept ws c.symbols c'.symbols)
    (hws : ∀ l ∈ layers, ∀ t ∈ l.held, t.id ∉ ws) : c'.Stands layers :=
  ⟨by rw [hs, h.scopes], fun l hl t ht => hk.knows (hws l hl t ht) (h.known l hl t ht)⟩

theorem Stands.step {layers : List Layer} (h : c.Stands layers) (hs : Step c c') :
    c'.Stands layers :=
  h.kept hs.scopes (@Step.kept _ _ hs []) fun _ _ _ _ => List.not_mem_nil

end Context

section Steps

variable {program : List Stmt} {p : Site} {b e : TokenId} {cs : List Token} {l : Layer}
  {ls : List Layer} {xs : List ExprId} {us : List Token} {c c₁ c₂ : Context}
  {s : List (Site × Mark)}

theorem Ready.step (h : Ready program p b e cs l ls xs us c) (hs : Step c c₁) :
    Ready program p b e cs l ls xs us c₁ :=
  { h with
    stands := h.stands.step hs
    classKind := hs.classKind.trans h.classKind
    fresh := @Fresh.right [] xs [] us c c₁ h.fresh hs.grows hs.kept }

theorem Walked.before (hs : Step c c₁) (h : Walked program cs l ls xs us s c₁ c₂) :
    Walked program cs l ls xs us s c c₂ :=
  ⟨hs.grows.before h.grows, hs.kept.trans h.kept, h.traced, h.stands,
    h.classKind.trans hs.classKind⟩

theorem Walked.behind (h : Walked program cs l ls xs us s c c₁) (hs : Step c₁ c₂) :
    Walked program cs l ls xs us s c c₂ where
  grows := h.grows.behind hs.grows
  kept := h.kept.trans hs.kept
  traced := h.traced.later ⟨fun id _ => hs.grows.distances id List.not_mem_nil,
    fun _ _ => by rw [hs.symbols], by simp [hs.symbols]⟩
  stands := h.stands.step hs
  classKind := hs.classKind.trans h.classKind

/-- Go on behind a step that finds nothing. -/
theorem Ready.skip (h : Ready program p b e cs l ls xs us c) (hs : Step c c₁)
    (hw : Ready program p b e cs l ls xs us c₁ → Walked program cs l ls xs us s c₁ c₂) :
    Walked program cs l ls xs us s c c₂ :=
  (hw (h.step hs)).before hs

theorem Ready.walked (h : Ready program p b e [] l ls [] [] c) :
    Walked program [] l ls [] [] [] c c :=
  ⟨.refl, .refl, .of_silent (by simp), h.stands, rfl⟩

end Steps

namespace Ready

variable {program : List Stmt} {p q : Site} {b e : TokenId} {cs ds : List Token} {l : Layer}
  {ls : List Layer} {xs ys : List ExprId} {us vs : List Token} {c c₁ c₂ : Context}
  {s₁ s₂ : List (Site × Mark)}

theorem pair (h : Ready program p b e (cs ++ ds) l ls (xs ++ ys) (us ++ vs) c)
    (hcs : cs.Sublist us) (hds : ds.Sublist vs) (hopen : cs = [] ∨ l.opening = none)
    (hq : p.Beside q)
    (hw : ∀ m, Ready program p b m cs l ls xs us c → Walked program cs l ls xs us s₁ c c₁) :
    ∃ m, Ready program p b m cs l ls xs us c ∧ Ready program q m e ds (l.pass cs) ls ys vs c₁ := by
  obtain ⟨m, hu, hv⟩ := h.within.split
  have hfirst := h.first hu hv fun t ht => hds.subset ht
  exact ⟨m, hfirst, h.second hu hv hcs hopen hq (hw m hfirst)⟩

theorem pairExpression (h : Ready program p b e cs l ls (xs ++ ys) (us ++ vs) c)
    (hcs : cs.Sublist us) (hopen : cs = [] ∨ l.opening = none) (hq : p.Beside q)
    (hw : ∀ m, Ready program p b m cs l ls xs us c → Walked program cs l ls xs us s₁ c c₁) :
    ∃ m, Ready program p b m cs l ls xs us c ∧ Ready program q m e [] (l.pass cs) ls ys vs c₁ := by
  rw [← List.append_nil cs] at h
  exact h.pair hcs (List.nil_sublist vs) hopen hq hw

/-- **A part made up of two parts is walked if both are.** -/
theorem append (h : Ready program p b e (cs ++ ds) l ls (xs ++ ys) (us ++ vs) c)
    (hcs : cs.Sublist us) (hds : ds.Sublist vs) (hopen : cs = [] ∨ l.opening = none)
    (hq : p.Beside q)
    (h₁ : ∀ m, Ready program p b m cs l ls xs us c → Walked program cs l ls xs us s₁ c c₁)
    (h₂ : ∀ m, Ready program q m e ds (l.pass cs) ls ys vs c₁ →
      Walked program ds (l.pass cs) ls ys vs s₂ c₁ c₂) :
    Walked program (cs ++ ds) l ls (xs ++ ys) (us ++ vs) (s₁ ++ s₂) c c₂ := by
  obtain ⟨m, hfirst, hsecond⟩ := h.pair hcs hds hopen hq h₁
  exact (h₁ m hfirst).append (h₂ m hsecond) h.fresh

theorem appendExpression (h : Ready program p b e cs l ls (xs ++ ys) (us ++ vs) c)
    (hcs : cs.Sublist us) (hopen : cs = [] ∨ l.opening = none) (hq : p.Beside q)
    (h₁ : ∀ m, Ready program p b m cs l ls xs us c → Walked program cs l ls xs us s₁ c c₁)
    (h₂ : ∀ m, Ready program q m e [] (l.pass cs) ls ys vs c₁ →
      Walked program [] (l.pass cs) ls ys vs s₂ c₁ c₂) :
    Walked program cs l ls (xs ++ ys) (us ++ vs) (s₁ ++ s₂) c c₂ := by
  rw [← List.append_nil cs] at h
  have := h.append hcs (List.nil_sublist vs) hopen hq h₁ h₂
  rwa [List.append_nil] at this

theorem both (h : Ready program p b e [] l ls (xs ++ ys) (us ++ vs) c)
    (h₁ : ∀ m, Ready program p b m [] l ls xs us c → Walked program [] l ls xs us s₁ c c₁)
    (h₂ : ∀ m, Ready program p m e [] l ls ys vs c₁ → Walked program [] l ls ys vs s₂ c₁ c₂) :
    Walked program [] l ls (xs ++ ys) (us ++ vs) (s₁ ++ s₂) c c₂ :=
  h.appendExpression (List.nil_sublist us) (.inl rfl) ⟨rfl, rfl, rfl⟩ h₁ h₂

theorem reversed (h : Ready program p b e [] l ls (xs ++ ys) (us ++ vs) c)
    (h₂ : ∀ m, Ready program p m e [] l ls ys vs c → Walked program [] l ls ys vs s₂ c c₁)
    (h₁ : ∀ m, Ready program p b m [] l ls xs us c₁ → Walked program [] l ls xs us s₁ c₁ c₂) :
    Walked program [] l ls (xs ++ ys) (us ++ vs) (s₁ ++ s₂) c c₂ := by
  obtain ⟨m, hu, hv⟩ := h.within.split
  have hspans (k : Layer) (hk : k.Spans program b e []) : k.Spans program m e [] :=
    ⟨hk.declarations, fun t ht => Nat.lt_of_lt_of_le (hk.before t ht) hu.le, hk.falling⟩
  have hsecond := h₂ m { h with
    innermost := hspans l h.innermost
    outer := fun k hk => hspans k (h.outer k hk)
    within := hv
    fresh := h.fresh.swap.left }
  have hfirst : Ready program p b m [] l ls xs us c :=
    first (by simpa using h) hu hv (List.forall_mem_nil (· ∈ vs))
  have hwalk := hsecond.append (h₁ m { hfirst with
    stands := hsecond.stands
    classKind := hsecond.classKind.trans h.classKind
    fresh := h.fresh.swap.right hsecond.grows hsecond.kept }) h.fresh.swap
  refine (hwalk.mono (fun id hid => ?_) fun t ht => ?_).marks fun x hx _ => ?_
  · exact List.perm_append_comm.mem_iff.mp hid
  · exact List.perm_append_comm.mem_iff.mp ht
  · exact List.perm_append_comm.mem_iff.mp hx

theorem around (h : Ready program p b e [] l ls xs us c) : Around program p b e (l :: ls) where
  regions := h.regions
  opening := List.forall_mem_cons.mpr ⟨fun t ht => h.opening.trans (congrArg _ ht), fun k hk t ht => by
    rw [h.closed k hk] at ht
    cases ht⟩
  innermost name hn := by
    obtain ⟨t, ht, hlexeme⟩ := Option.map_eq_some_iff.mp (h.opening.symm.trans hn)
    exact ⟨l, rfl, t, ht, hlexeme⟩
  spans := List.forall_mem_cons.mpr ⟨h.innermost, h.outer⟩

/-- What was passed stands in front of the part. -/
theorem held_not_mem (h : Ready program p b e cs l ls xs us c) :
    ∀ k ∈ l :: ls, ∀ t ∈ k.held, t.id ∉ us.map Token.id := by
  have hspans : ∀ k ∈ l :: ls, ∀ t ∈ k.passed, t.id < b :=
    List.forall_mem_cons.mpr ⟨h.innermost.before, fun k hk => (h.outer k hk).before⟩
  intro k hk t ht hmem
  obtain ⟨u, hu, hid⟩ := List.mem_map.mp hmem
  have hlt := hspans k hk t (Layer.mem_passed.mpr (.inr ht))
  rw [← hid] at hlt
  exact Nat.not_le_of_lt hlt (h.within.first_le u hu)

/-- **A use is found where the text says.** -/
theorem use {use : Occurrence} (h : Ready program p b e [] l ls [use.id] [use.name] c)
    (hspelled : use.name.Spelled) {sites : List (Site × Mark)}
    (hsites : ∀ x ∈ sites, ∀ o ∈ x.2.occurrence?,
      o = use ∧ x.1.regions = p.regions ∧ x.1.opening = p.opening) :
    Walked program [] l ls [use.id] [use.name] sites c (c.use use) where
  grows := grows_use use
  kept := Context.kept_use use
  traced := by
    have hb := h.within.first_le use.name List.mem_cons_self
    have he := h.within.lt_last use.name List.mem_cons_self
    have hnew := h.fresh.new.unknown use.id List.mem_cons_self
    have hfree := h.fresh.free use.name List.mem_cons_self
    intro c' hl x hx o ho _
    obtain ⟨rfl, hr, hopening⟩ := hsites x hx o ho
    refine ⟨(h.around.located h.stands hb he hnew).later hr hl, fun hname => ?_⟩
    exact (h.around.refers h.stands ⟨hname, hspelled⟩ hb he hnew hfree).later hr hopening hl
  stands := h.stands.kept (alike_use use).scopes (Context.kept_use use) h.held_not_mem
  classKind := (alike_use use).classKind

end Ready

/-! ## Declarations -/

section Declarations

variable {program : List Stmt} {p q : Site} {b e : TokenId} {cs : List Token} {l : Layer}
  {ls : List Layer} {xs : List ExprId} {us : List Token} {c c₁ c₂ c₃ : Context}
  {s : List (Site × Mark)} {t : Token}

theorem Context.declare_symbols (t : Token) : (c.declare t).symbols = c.symbols :=
  (bind_symbols _ _).trans (step_check _ _ _).symbols

theorem Context.declare_classKind (t : Token) : (c.declare t).classKind = c.classKind :=
  (bind_classKind _ _).trans (step_check _ _ _).classKind

theorem Context.define_classKind (t : Token) (kind : SymbolKind) :
    (c.define t kind).classKind = c.classKind :=
  define_eq_bind t kind ▸ bind_classKind _ _

theorem Context.Stands.ne_nil (h : c.Stands (l :: ls)) : c.scopes ≠ [] := fun hs => by
  have hscopes := h.scopes
  rw [hs] at hscopes
  cases hscopes

theorem Context.map_bind {f : String → Option Binding} {fs : List (String → Option Binding)}
    (h : c.scopes.map Bindings.get? = f :: fs) (name : String) (s : Binding) :
    (c.bind name s).scopes.map Bindings.get? =
      (fun other => if name = other then some s else f other) :: fs := by
  obtain ⟨scope, outer, hs, rfl, rfl⟩ := List.map_eq_cons_iff.mp h
  rw [bind_eq hs, List.map_cons]
  refine congrArg (· :: _) (funext fun other => ?_)
  exact Bindings.get?_insert scope name other s

theorem Context.Stands.declare (h : c.Stands (l :: ls)) (ho : l.opening = none) (t : Token) :
    (c.declare t).Stands ({ l with opening := some t } :: ls) where
  scopes := by
    have hs := step_check (c := c) (c.innermost? t.lexeme).isSome .alreadyDeclared t
    rw [Context.declare, map_bind (by rw [hs.scopes]; exact h.scopes), List.map_cons]
    refine congrArg (· :: _) (funext fun name => ?_)
    by_cases hn : t.lexeme = name <;> simp [Layer.state, ho, hn]
  known := by
    rw [declare_symbols]
    exact List.forall_mem_cons.mpr ⟨h.known l List.mem_cons_self,
      fun k hk => h.known k (List.mem_cons_of_mem l hk)⟩

theorem Context.Stands.define (h : c.Stands (l :: ls)) (ho : l.opening = some t)
    (kind : SymbolKind) (hheld : ∀ k ∈ l :: ls, ∀ u ∈ k.held, u.id ≠ t.id) :
    (c.define t kind).Stands ({ l with held := t :: l.held, opening := none } :: ls) where
  scopes := by
    rw [define_of_ne_nil h.ne_nil]
    show (c.bind _ _).scopes.map _ = _
    rw [map_bind h.scopes, List.map_cons]
    refine congrArg (· :: _) (funext fun name => ?_)
    by_cases hn : t.lexeme = name <;> simp [Layer.state, ho, hn]
  known := by
    rw [define_symbols h.ne_nil]
    have hkept : ∀ k ∈ l :: ls, ∀ u ∈ k.held, (c.symbols.define t kind).Knows u := fun k hk u hu =>
      (SymbolGraph.kept_define kind List.mem_cons_self).knows
        (fun hm => hheld k hk u hu (List.mem_singleton.mp hm)) (h.known k hk u hu)
    refine List.forall_mem_cons.mpr ⟨List.forall_mem_cons.mpr ⟨SymbolGraph.knows_define kind, ?_⟩, ?_⟩
    · exact hkept l List.mem_cons_self
    · exact fun k hk => hkept k (List.mem_cons_of_mem l hk)

/-- In front of the initializer of a variable, behind its name. -/
theorem Ready.initializer (h : Ready program p b e [t] l ls xs (t :: us) c)
    (ho : l.opening = none) : ∃ m, Ready program (p.initializing t.lexeme) m e []
      { l with opening := some t } ls xs us (c.declare t) := by
  obtain ⟨m, hu, hv⟩ := @Within.split b e [t] us h.within
  have ht : t.id < m := hu.lt_last t List.mem_cons_self
  have hfresh : c.Fresh ([] ++ xs) ([t] ++ us) := h.fresh
  have hpassed : ({ l with opening := some t } : Layer).passed = t :: l.passed := by
    simp [Layer.passed, ho]
  exact ⟨m, {
    regions := h.regions
    opening := rfl
    closed := h.closed
    innermost := by
      obtain ⟨after, hdecl, hafter⟩ := h.innermost.declarations
      refine ⟨⟨after, by rw [hpassed]; exact hdecl.trans (by simp), hafter⟩, ?_, ?_⟩
      · rw [hpassed]
        exact List.forall_mem_cons.mpr ⟨ht, fun u hu' =>
          Nat.lt_of_lt_of_le (h.innermost.before u hu') hu.le⟩
      · rw [hpassed]
        exact List.pairwise_cons.mpr ⟨fun u hu' => Nat.lt_of_lt_of_le (h.innermost.before u hu')
          (hu.first_le t List.mem_cons_self), h.innermost.falling⟩
    outer := fun k hk => ⟨(h.outer k hk).declarations, fun u hu' =>
      Nat.lt_of_lt_of_le ((h.outer k hk).before u hu') hu.le, (h.outer k hk).falling⟩
    stands := h.stands.declare ho t
    classKind := (declare_classKind t).trans h.classKind
    within := hv
    fresh := hfresh.right (grows_declare t) (by rw [declare_symbols]; exact .refl) }⟩

/-- **A variable is declared in front of its initializer and defined behind it.** -/
theorem Ready.variable (h : Ready program p b e [t] l ls xs (t :: us) c) (ho : l.opening = none)
    (hinit : ∀ m, Ready program (p.initializing t.lexeme) m e [] { l with opening := some t } ls xs us
      (c.declare t) → Walked program [] { l with opening := some t } ls xs us s (c.declare t) c₁)
    (kind : SymbolKind) : Walked program [t] l ls xs (t :: us) s c (c₁.define t kind) := by
  obtain ⟨m, hready⟩ := h.initializer ho
  have hfresh : c.Fresh ([] ++ xs) ([t] ++ us) := h.fresh
  have hw := hinit m hready
  have hheld : ∀ k ∈ { l with opening := some t } :: ls, ∀ u ∈ k.held, u.id ≠ t.id := by
    have hne (k : Layer) (hk : k ∈ l :: ls) (u : Token) (hu : u ∈ k.held) : u.id ≠ t.id :=
      fun he => h.held_not_mem k hk u hu (he ▸ List.mem_cons_self)
    exact List.forall_mem_cons.mpr ⟨hne l List.mem_cons_self,
      fun k hk => hne k (List.mem_cons_of_mem l hk)⟩
  have hdefine : SymbolGraph.Kept [t.id] c₁.symbols (c₁.define t kind).symbols := by
    rw [define_symbols hw.stands.ne_nil]
    exact SymbolGraph.kept_define kind List.mem_cons_self
  refine ⟨(grows_declare t).before (hw.grows.behind (grows_define t kind)), ?_, ?_, ?_, ?_⟩
  · have hkept := hw.kept.append hdefine
    rw [declare_symbols] at hkept
    exact hkept.widen fun id hid => List.perm_append_comm.mem_iff.mp hid
  · refine (hw.traced.later (.of_apart (grows_define t kind) hdefine ?_ ?_)).mono (fun _ h => h)
      fun _ => List.mem_cons_of_mem t.id
    · exact fun id hid => absurd hid List.not_mem_nil
    · exact hfresh.swap.apart
  · have := hw.stands.define rfl kind hheld
    rwa [← ho] at this
  · rw [define_classKind, hw.classKind, declare_classKind]

/-- **A name without an initializer is declared right behind its token.** -/
theorem Ready.introduce (h : Ready program p b e [t] l ls [] [t] c) (ho : l.opening = none)
    (kind : SymbolKind) (hs : ∀ x ∈ s, x.2.occurrence? = none) :
    Walked program [t] l ls [] [t] s c ((c.declare t).define t kind) :=
  h.variable ho (fun _ h => h.walked.marks fun x hx hne => absurd (hs x hx) hne) kind

theorem Ready.enter {r : Region} (h : Ready program p b e [] l ls xs us c)
    (hr : r.declarations program = cs) (hq : q.regions = r :: p.regions) (hp : q.opening = p.opening)
    (ho : l.opening = none) (hk : c₁.classKind = q.classKind) (hg : Grows [] c c₁)
    (hscopes : c₁.scopes.map Bindings.get? = (⟨r, [], none⟩ : Layer).state ::
      c.scopes.map Bindings.get?) (hsym : c₁.symbols = c.symbols) :
    Ready program q b e cs ⟨r, [], none⟩ (l :: ls) xs us c₁ where
  regions := by rw [hq, ← h.regions]; rfl
  opening := by rw [hp, h.opening, ho, Option.map_none]
  closed := List.forall_mem_cons.mpr ⟨ho, h.closed⟩
  innermost := ⟨⟨[], by rw [hr]; simp [Layer.passed], by simp⟩, by simp [Layer.passed],
    by simp [Layer.passed]⟩
  outer := List.forall_mem_cons.mpr ⟨h.innermost, h.outer⟩
  stands := by
    refine ⟨by rw [hscopes, h.stands.scopes]; rfl, ?_⟩
    rw [hsym]
    exact List.forall_mem_cons.mpr ⟨by simp, h.stands.known⟩
  classKind := hk
  within := h.within
  fresh := by
    have hkept : SymbolGraph.Kept [] c.symbols c₁.symbols := hsym ▸ .refl
    exact @Fresh.right [] xs [] us c c₁ h.fresh hg hkept

theorem Walked.leave {r : Region} (h : Walked program cs ⟨r, [], none⟩ (l :: ls) xs us s c₁ c₂)
    (hg₁ : Grows [] c c₁) (hsym₁ : c₁.symbols = c.symbols) (hg₂ : Grows [] c₂ c₃)
    (hsym₂ : c₃.symbols = c₂.symbols) (hscopes : c₃.scopes = c₂.scopes.tail)
    (hk : c₃.classKind = c.classKind) : Walked program [] l ls xs us s c c₃ where
  grows := (hg₁.before h.grows).behind hg₂
  kept := by
    rw [hsym₂, ← hsym₁]
    exact h.kept
  traced := h.traced.later ⟨fun id _ => hg₂.distances id List.not_mem_nil,
    fun _ _ => by rw [hsym₂], by simp [hsym₂]⟩
  stands := by
    refine ⟨?_, fun k hk t ht => ?_⟩
    · rw [hscopes, List.map_tail, h.stands.scopes]
      rfl
    · rw [hsym₂]
      exact h.stands.known k (List.mem_cons_of_mem _ hk) t ht
  classKind := hk

end Declarations

end Lox
