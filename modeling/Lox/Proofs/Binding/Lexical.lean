import Lox.Proofs.Binding.Grow
import Lox.Proofs.Binding.Links
import Lox.Proofs.Binding.Site
import Lox.Proofs.Syntax.Order

/-!
# Lexical scope

What a name means is said by the text alone: by the scopes around its place, by the declarations
that stand in each of them, and by which of those stand in front of the place.

* `Region.declarations`: the tokens that declare names in a scope, `Region.Declares`: one of them
  declares the name of a use in front of it, `Region.Binds`: the last one that does;
* `Site.Located`, `Site.Linked`: the distance of a use and its declaration are what the text says,
  **`Resolution.Lexical`**: those of all uses are;
* `Layer`: a scope on the way through a program with the declarations that were passed,
  `Layer.Spans`: which of its declarations those are;
* **`Around.located`**, **`Around.refers`**: what the resolver finds in open scopes that hold the
  declarations passed so far is what the text says.
-/

namespace Lox

/-! ## What the text says -/

namespace Region

/-- The tokens that declare names in a scope, from left to right; the top level is that of the given
program. -/
def declarations (program : List Stmt) : Region → List Token
  | .top => program.filterMap Stmt.declared?
  | .block body => body.filterMap Stmt.declared?
  | .clauses initializer _ _ _ => (initializer.bind Stmt.declared?).toList
  | .function f => f.params ++ f.body.filterMap Stmt.declared?
  | .this _ | .super _ => []

/-- The word that a scope binds without a declaration. -/
def word? : Region → Option Keyword
  | .this _ => some .this
  | .super _ => some .super
  | _ => none

/-- In the scope the name of `use` is declared in front of `use`, or it is the word of the scope. -/
def Declares (program : List Stmt) (r : Region) (use : Token) : Prop :=
  (∃ t ∈ r.declarations program, t.lexeme = use.lexeme ∧ t.id ≤ use.id) ∨
    ∃ k, r.word? = some k ∧ use.lexeme = k.spelling

/-- The last token in front of `use` that declares its name in the scope is `t`. -/
structure Binds (program : List Stmt) (r : Region) (use t : Token) : Prop where
  mem : t ∈ r.declarations program
  lexeme : t.lexeme = use.lexeme
  le : t.id ≤ use.id
  last : ∀ u ∈ r.declarations program, u.lexeme = use.lexeme → u.id ≤ use.id → u.id ≤ t.id

end Region

/-- The occurrence whose name a mark reads or writes. -/
def Mark.occurrence? : Mark → Option Occurrence
  | .read use => some use
  | .write target => some target
  | _ => none

namespace Site

/-- `this` may stand in a class only, and `super` only if the class has a superclass. -/
structure Admits (p : Site) (t : Token) : Prop where
  this : t.IsWord .this → p.classKind ≠ .none
  super : t.IsWord .super → p.classKind = .subclass

/-- The distance recorded for a use is that of the innermost scope around it that declares its name
in front of it; nothing is recorded if there is no such scope. -/
structure Located (program : List Stmt) (distances : Distances) (p : Site) (use : Occurrence) :
    Prop where
  distance : ∀ d, distances[use.id]? = some d ↔
    ∃ r, p.regions[d]? = some r ∧ r.Declares program use.name ∧
      ∀ i < d, ∀ inner, p.regions[i]? = some inner → ¬ inner.Declares program use.name
  missing : distances[use.id]? = none ↔ ∀ r ∈ p.regions, ¬ r.Declares program use.name

/-- A use of a name is linked to the last declaration in front of it in the scope at the recorded
distance, unless this declares the variable in whose initializer the use stands; it is linked to
nothing if there is no such scope. -/
structure Linked (program : List Stmt) (distances : Distances) (symbols : SymbolGraph) (p : Site)
    (use : Occurrence) : Prop where
  definition : ∀ d, distances[use.id]? = some d → p.opening ≠ some use.name.lexeme →
    ∃ r t definition, p.regions[d]? = some r ∧ r.Binds program use.name t ∧
      symbols.definitionOf use.name.id = some definition ∧ definition.token = t
  missing : distances[use.id]? = none → symbols.definitionOf use.name.id = none

end Site

/-- Every use that stands where it may stand has the distance that the text says, and every use of a
name is linked to the declaration that the text says. -/
def Resolution.Lexical (program : List Stmt) (r : Resolution) : Prop :=
  ∀ x ∈ programSites program, ∀ use ∈ x.2.occurrence?, x.1.Admits use.name →
    x.1.Located program r.distances use ∧
      (use.name.IsName → x.1.Linked program r.distances r.symbols use)

/-! ## Scopes on the way through a program -/

theorem Context.find?_eq_some {name : String} {scopes : List ScopeNames} {d : Nat} {b : Binding} :
    find? name scopes = some (d, b) ↔
      ∃ state, (scopes.map Bindings.get?)[d]? = some state ∧ state name = some b ∧
        ∀ i < d, ∀ inner, (scopes.map Bindings.get?)[i]? = some inner → inner name = none := by
  induction scopes generalizing d with
  | nil => simp [find?]
  | cons scope outer ih =>
    rw [find?, List.map_cons]
    cases hg : scope.get? name with
    | some b' =>
      cases d with
      | zero => simp [hg]
      | succ d =>
        refine iff_of_false (by simp) ?_
        rintro ⟨_, -, -, h⟩
        have := h 0 (Nat.succ_pos d) scope.get? rfl
        simp [hg] at this
    | none =>
      cases d with
      | zero => simp [hg]
      | succ d =>
        have hstep : (find? name outer).map (fun x => (x.1 + 1, x.2)) = some (d + 1, b) ↔
            find? name outer = some (d, b) := by
          cases find? name outer <;> simp [Prod.ext_iff]
        refine hstep.trans (ih.trans ?_)
        constructor
        · rintro ⟨f, hf, hb, hinner⟩
          refine ⟨f, hf, hb, fun i hi inner h => ?_⟩
          cases i with
          | zero =>
            obtain rfl : scope.get? = inner := by simpa using h
            exact hg
          | succ i => exact hinner i (by omega) inner h
        · rintro ⟨f, hf, hb, hinner⟩
          exact ⟨f, hf, hb, fun i hi inner h => hinner (i + 1) (by omega) inner h⟩

theorem Context.find?_eq_none {name : String} {scopes : List ScopeNames} :
    find? name scopes = none ↔ ∀ state ∈ scopes.map Bindings.get?, state name = none := by
  induction scopes with
  | nil => simp [find?]
  | cons scope outer ih =>
    rw [find?, List.map_cons, List.forall_mem_cons, ← ih]
    cases scope.get? name <;> simp

/-- A scope on the way through a program. -/
structure Layer where
  region : Region
  /-- The declarations that were passed, the last one first. -/
  held : List Token
  /-- The variable whose initializer is being passed. -/
  opening : Option Token

namespace Layer

/-- The state of a name. -/
def state (l : Layer) (name : String) : Option Binding :=
  if l.opening.any (·.lexeme == name) then some .uninitialized
  else
    match l.held.find? (·.lexeme == name) with
    | some t => some (.declared t.id)
    | none => if l.region.word?.any (·.spelling == name) then some .implicit else none

/-- The declarations in front of the place, the last one first. -/
def passed (l : Layer) : List Token := l.opening.toList ++ l.held

/-- Of the declarations of a scope some were passed in front of the number `b`, the tokens `coming`
are those between `b` and `e`, and the others stand behind `e`. -/
structure Spans (program : List Stmt) (b e : TokenId) (coming : List Token) (l : Layer) : Prop where
  declarations : ∃ after, l.region.declarations program = l.passed.reverse ++ coming ++ after ∧
    ∀ t ∈ after, e ≤ t.id
  before : ∀ t ∈ l.passed, t.id < b
  falling : l.passed.Pairwise fun t u => u.id < t.id

theorem mem_passed {l : Layer} {t : Token} : t ∈ l.passed ↔ t ∈ l.opening ∨ t ∈ l.held := by
  rw [passed, List.mem_append, Option.mem_toList, Option.mem_def]

theorem state_ne_none {l : Layer} {name : String} :
    l.state name ≠ none ↔ (∃ t ∈ l.passed, t.lexeme = name) ∨
      ∃ k, l.region.word? = some k ∧ name = k.spelling := by
  have hword : l.region.word?.any (·.spelling == name) = true ↔
      ∃ k, l.region.word? = some k ∧ name = k.spelling := by
    simp only [Option.any_eq_true, beq_iff_eq]
    exact exists_congr fun k => and_congr Iff.rfl eq_comm
  unfold state
  by_cases ho : l.opening.any (·.lexeme == name) = true
  · obtain ⟨t, ht, hn⟩ := (Option.any_eq_true _ _).mp ho
    rw [if_pos ho]
    exact iff_of_true (by simp) (.inl ⟨t, mem_passed.mpr (.inl ht), by simpa using hn⟩)
  · rw [if_neg ho]
    cases hf : l.held.find? (·.lexeme == name) with
    | some t =>
      have hn : t.lexeme = name := by simpa using List.find?_some hf
      have ht := List.mem_of_find?_eq_some hf
      exact iff_of_true (by simp) (.inl ⟨t, mem_passed.mpr (.inr ht), hn⟩)
    | none =>
      have hnone : ¬ ∃ t ∈ l.passed, t.lexeme = name := by
        rintro ⟨t, ht, hn⟩
        rcases mem_passed.mp ht with ht | ht
        · exact ho ((Option.any_eq_true _ _).mpr ⟨t, ht, by simpa using hn⟩)
        · exact List.find?_eq_none.mp hf t ht (by simpa using hn)
      rw [← hword]
      simp [hnone]

/-- A variable is uninitialized in its own initializer only. -/
theorem opening_of_state {l : Layer} {name : String} (h : l.state name = some .uninitialized) :
    ∃ t ∈ l.opening, t.lexeme = name := by
  unfold state at h
  by_cases ho : l.opening.any (·.lexeme == name) = true
  · obtain ⟨t, ht, hn⟩ := (Option.any_eq_true _ _).mp ho
    exact ⟨t, ht, by simpa using hn⟩
  · rw [if_neg ho] at h
    split at h
    · cases h
    · split at h <;> cases h

theorem state_of_opening {l : Layer} {name : String} {t : Token} (ht : t ∈ l.opening)
    (hn : t.lexeme = name) : l.state name = some .uninitialized := by
  have hopen : l.opening.any (·.lexeme == name) = true :=
    (Option.any_eq_true _ _).mpr ⟨t, ht, beq_iff_eq.mpr hn⟩
  rw [state, if_pos hopen]

theorem spelling_of_state {l : Layer} {name : String} (h : l.state name = some .implicit) :
    ∃ k : Keyword, name = k.spelling := by
  unfold state at h
  split at h
  · cases h
  · split at h
    · cases h
    · split at h
      · rename_i hw
        obtain ⟨k, -, hk⟩ := (Option.any_eq_true _ _).mp hw
        exact ⟨k, (beq_iff_eq.mp hk).symm⟩
      · cases h

section

variable {program : List Stmt} {b e : TokenId} {l : Layer} {use : Token}

/-- At a place the declarations in front of it are those that were passed. -/
theorem Spans.mem_declarations (h : l.Spans program b e []) (hb : b ≤ use.id) (he : use.id < e)
    (t : Token) : (t ∈ l.region.declarations program ∧ t.id ≤ use.id) ↔ t ∈ l.passed := by
  obtain ⟨after, hdecl, hafter⟩ := h.declarations
  rw [hdecl, List.append_nil, List.mem_append, List.mem_reverse]
  constructor
  · rintro ⟨ht | ht, hle⟩
    · exact ht
    · exact absurd (Nat.le_trans (hafter t ht) hle) (Nat.not_le_of_lt he)
  · exact fun ht => ⟨.inl ht, Nat.le_of_lt (Nat.lt_of_lt_of_le (h.before t ht) hb)⟩

theorem Spans.state_ne_none (h : l.Spans program b e []) (hb : b ≤ use.id) (he : use.id < e) :
    l.state use.lexeme ≠ none ↔ l.region.Declares program use := by
  rw [Layer.state_ne_none, Region.Declares]
  refine or_congr (exists_congr fun t => ?_) Iff.rfl
  rw [← h.mem_declarations hb he]
  constructor
  · exact fun ⟨⟨ht, hle⟩, hn⟩ => ⟨ht, hn, hle⟩
  · exact fun ⟨ht, hn, hle⟩ => ⟨⟨ht, hle⟩, hn⟩

theorem Spans.state_eq_none (h : l.Spans program b e []) (hb : b ≤ use.id) (he : use.id < e) :
    l.state use.lexeme = none ↔ ¬ l.region.Declares program use := by
  rw [← h.state_ne_none hb he, Classical.not_not]

/-- A declared name is bound by the declaration that was passed last. -/
theorem Spans.binds (h : l.Spans program b e []) (hb : b ≤ use.id) (he : use.id < e) {id : TokenId}
    (hs : l.state use.lexeme = some (.declared id)) :
    ∃ t ∈ l.held, t.id = id ∧ l.region.Binds program use t := by
  unfold state at hs
  by_cases ho : l.opening.any (·.lexeme == use.lexeme) = true
  · rw [if_pos ho] at hs
    cases hs
  · rw [if_neg ho] at hs
    cases hf : l.held.find? (·.lexeme == use.lexeme) with
    | none =>
      rw [hf] at hs
      dsimp only at hs
      split at hs <;> cases hs
    | some t =>
      rw [hf] at hs
      obtain ⟨hn, newer, older, hheld, hnewer⟩ := List.find?_eq_some_iff_append.mp hf
      have hid : t.id = id := by simpa using hs
      have hmem := List.mem_of_find?_eq_some hf
      obtain ⟨hdecl, hle⟩ := (h.mem_declarations hb he t).mpr (mem_passed.mpr (.inr hmem))
      refine ⟨t, hmem, hid, hdecl, by simpa using hn, hle, fun u hu hun hule => ?_⟩
      have hpassed := mem_passed.mp ((h.mem_declarations hb he u).mp ⟨hu, hule⟩)
      have hopen : u ∉ l.opening := fun hmem =>
        ho ((Option.any_eq_true _ _).mpr ⟨u, hmem, by simpa using hun⟩)
      have hu' := hpassed.resolve_left hopen
      have hfalling : l.held.Pairwise fun t u => u.id < t.id := (List.pairwise_append.mp h.falling).2.1
      rw [hheld] at hu' hfalling
      rcases List.mem_append.mp hu' with hu' | hu'
      · have := hnewer u hu'
        simp [hun] at this
      · rcases List.mem_cons.mp hu' with rfl | hu'
        · exact Nat.le_refl _
        · have hlater := (List.pairwise_append.mp hfalling).2.1
          exact Nat.le_of_lt (List.rel_of_pairwise_cons hlater hu')

end

end Layer

/-! ## Uses -/

/-- The open scopes hold the declarations that were passed, and these are known. -/
structure Context.Stands (c : Context) (layers : List Layer) : Prop where
  scopes : c.scopes.map Bindings.get? = layers.map Layer.state
  known : ∀ l ∈ layers, ∀ t ∈ l.held, c.symbols.Knows t

/-- The layers are the scopes around a site, which stands between `b` and `e`. -/
structure Around (program : List Stmt) (p : Site) (b e : TokenId) (layers : List Layer) : Prop where
  regions : layers.map Layer.region = p.regions
  opening : ∀ l ∈ layers, ∀ t ∈ l.opening, p.opening = some t.lexeme
  /-- The innermost scope declares the variable in whose initializer the site stands. -/
  innermost : ∀ name, p.opening = some name → ∃ l ∈ layers.head?, ∃ t ∈ l.opening, t.lexeme = name
  spans : ∀ l ∈ layers, l.Spans program b e []

section

variable {program : List Stmt} {c : Context} {p : Site} {b e : TokenId} {layers : List Layer}

theorem Context.Stands.find?_eq_some (h : c.Stands layers) {name : String} {d : Nat} {s : Binding} :
    find? name c.scopes = some (d, s) ↔ ∃ l, layers[d]? = some l ∧ l.state name = some s ∧
      ∀ i < d, ∀ inner, layers[i]? = some inner → inner.state name = none := by
  rw [Context.find?_eq_some, h.scopes]
  simp only [List.getElem?_map, Option.map_eq_some_iff, forall_exists_index, and_imp,
    forall_apply_eq_imp_iff₂]
  constructor
  · rintro ⟨_, ⟨l, hl, rfl⟩, hs, hinner⟩
    exact ⟨l, hl, hs, hinner⟩
  · rintro ⟨l, hl, hs, hinner⟩
    exact ⟨l.state, ⟨l, hl, rfl⟩, hs, hinner⟩

theorem Context.Stands.find?_eq_none (h : c.Stands layers) {name : String} :
    find? name c.scopes = none ↔ ∀ l ∈ layers, l.state name = none := by
  rw [Context.find?_eq_none, h.scopes]
  simp

theorem Context.distance_use {use : Occurrence} (hnew : c.distances[use.id]? = none) :
    (c.use use).distances[use.id]? = (find? use.name.lexeme c.scopes).map Prod.fst := by
  rw [use_distances]
  cases find? use.name.lexeme c.scopes <;> simp [hnew]

/-- **The distance of a use is what the text says.** -/
theorem Around.located (ha : Around program p b e layers) (hs : c.Stands layers) {use : Occurrence}
    (hb : b ≤ use.name.id) (he : use.name.id < e) (hnew : c.distances[use.id]? = none) :
    Site.Located program (c.use use).distances p use := by
  have hdeclares (l : Layer) (hl : l ∈ layers) := (ha.spans l hl).state_ne_none hb he
  have hsilent (l : Layer) (hl : l ∈ layers) := (ha.spans l hl).state_eq_none hb he
  constructor
  · intro d
    rw [Context.distance_use hnew, Option.map_eq_some_iff, ← ha.regions]
    constructor
    · rintro ⟨⟨d, s⟩, hfind, rfl⟩
      obtain ⟨l, hl, hstate, hinner⟩ := hs.find?_eq_some.mp hfind
      have hmem := List.mem_of_getElem? hl
      refine ⟨l.region, by simp [hl], (hdeclares l hmem).mp (by simp [hstate]), ?_⟩
      intro i hi r hr
      rw [List.getElem?_map, Option.map_eq_some_iff] at hr
      obtain ⟨k, hk, rfl⟩ := hr
      exact (hsilent k (List.mem_of_getElem? hk)).mp (hinner i hi k hk)
    · rintro ⟨r, hr, hdecl, hinner⟩
      rw [List.getElem?_map, Option.map_eq_some_iff] at hr
      obtain ⟨l, hl, rfl⟩ := hr
      obtain ⟨s, hstate⟩ := Option.ne_none_iff_exists'.mp
        ((hdeclares l (List.mem_of_getElem? hl)).mpr hdecl)
      refine ⟨(d, s), hs.find?_eq_some.mpr ⟨l, hl, hstate, fun i hi k hk => ?_⟩, rfl⟩
      exact (hsilent k (List.mem_of_getElem? hk)).mpr (hinner i hi k.region (by simp [hk]))
  · rw [Context.distance_use hnew, Option.map_eq_none_iff, hs.find?_eq_none, ← ha.regions]
    simp only [List.forall_mem_map]
    exact forall₂_congr hsilent

/-- The use of a name refers to the last declaration in front of it, as the symbols have it, and to
nothing in the initializer of the variable of that name. -/
structure Site.Refers (program : List Stmt) (distances : Distances) (symbols : SymbolGraph)
    (p : Site) (use : Occurrence) : Prop where
  declaration : ∀ d, distances[use.id]? = some d → p.opening ≠ some use.name.lexeme →
    ∃ r t, p.regions[d]? = some r ∧ r.Binds program use.name t ∧ symbols.Links use.name.id t
  missing : distances[use.id]? = none → symbols.used[use.name.id]? = none
  opening : p.opening = some use.name.lexeme → symbols.used[use.name.id]? = none

theorem Site.Refers.linked {distances : Distances} {symbols : SymbolGraph} {use : Occurrence}
    (h : p.Refers program distances symbols use) : p.Linked program distances symbols use := by
  constructor
  · intro d hd hopening
    obtain ⟨r, t, hr, hbinds, hlinks⟩ := h.declaration d hd hopening
    obtain ⟨definition, hdef, htoken⟩ := hlinks.definitionOf
    exact ⟨r, t, definition, hr, hbinds, hdef, htoken⟩
  · exact fun hd => SymbolGraph.definitionOf_eq_none (h.missing hd)

/-- **The declaration that a use of a name refers to is what the text says.** -/
theorem Around.refers (ha : Around program p b e layers) (hs : c.Stands layers) {use : Occurrence}
    (hname : use.name.Names) (hb : b ≤ use.name.id) (he : use.name.id < e)
    (hnew : c.distances[use.id]? = none) (hfree : c.symbols.used[use.name.id]? = none) :
    Site.Refers program (c.use use).distances (c.use use).symbols p use := by
  constructor
  · intro d hd hopening
    rw [Context.distance_use hnew, Option.map_eq_some_iff] at hd
    obtain ⟨⟨d, s⟩, hfind, rfl⟩ := hd
    obtain ⟨l, hl, hstate, -⟩ := hs.find?_eq_some.mp hfind
    have hmem := List.mem_of_getElem? hl
    cases s with
    | uninitialized =>
      obtain ⟨t, ht, hn⟩ := Layer.opening_of_state hstate
      exact absurd (hn ▸ ha.opening l hmem t ht) hopening
    | implicit =>
      obtain ⟨k, hk⟩ := Layer.spelling_of_state hstate
      exact absurd hk (hname.lexeme_ne k)
    | declared id =>
      obtain ⟨t, ht, rfl, hbinds⟩ := (ha.spans l hmem).binds hb he hstate
      refine ⟨l.region, t, by rw [← ha.regions]; simp [hl], hbinds, ?_⟩
      rw [Context.use, hfind]
      exact SymbolGraph.links_refer (hs.known l hmem t ht)
  · intro hd
    rw [Context.distance_use hnew, Option.map_eq_none_iff] at hd
    rw [Context.use, hd]
    exact hfree
  · intro hopening
    obtain ⟨l, hl, t, ht, hn⟩ := ha.innermost _ hopening
    have hstate : l.state use.name.lexeme = some .uninitialized := Layer.state_of_opening ht hn
    obtain ⟨k, hk⟩ : ∃ k, layers = l :: k := by
      cases layers with
      | nil => cases hl
      | cons l' k => exact ⟨k, congrArg (· :: k) (Option.some.inj hl)⟩
    have hfind : Context.find? use.name.lexeme c.scopes = some (0, .uninitialized) :=
      hs.find?_eq_some.mpr ⟨l, by rw [hk]; rfl, hstate, fun i hi => absurd hi (Nat.not_lt_zero i)⟩
    rw [Context.use, hfind]
    exact hfree

end

end Lox
