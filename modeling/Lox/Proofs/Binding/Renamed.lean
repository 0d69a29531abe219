import Lox.Proofs.Binding.Consistent
import Lox.Proofs.Binding.Respelled
import Lox.Proofs.Syntax.Variables

/-!
# A symbol with another name

All occurrences of a symbol are given a name that the text does not have. If every use that a run
looks up in the scope of its declaration stands behind it, and not in the initializer of the variable,
all uses are found where they were found before.

* `Site.reached?`: the scope in which a run looks for a binding, `Definition.PrecedesUses`: a symbol is
  declared in front of every use that is looked up there;
* `Respelling.Renames`: the occurrences of a symbol of a text get another name;
* `Respelling.owns`: a scope declares the symbol, `Region.Agrees`, `Site.Agrees`: the names in a scope
  and at a site tell the symbol from all other ones;
* **`Respelling.Renames.distance_eq`**: no use changes its distance;
* **`Respelling.Renames.agrees`**: all sites of the text agree with the renaming.
-/

namespace Lox

/-! ## Uses behind their declaration -/

/-- The scope in which a run looks for the binding of a use: at its distance, or among the
globals. -/
def Site.reached? (p : Site) : Option Nat → Option Region
  | some distance => p.regions[distance]?
  | none => p.regions.getLast?

/-- A use of the name of a symbol that is looked up in the scope of its declaration stands behind it,
and not in the initializer of the variable. -/
def Definition.PrecedesUses (program : List Stmt) (distances : Distances) (d : Definition) : Prop :=
  ∀ x ∈ programSites program, ∀ use ∈ x.2.occurrence?, use.name.lexeme = d.token.lexeme →
    ∀ region ∈ x.1.reached? distances[use.id]?,
      d.token.id ∈ (region.declarations program).map Token.id →
        d.token.id < use.name.id ∧ x.1.opening ≠ some use.name.lexeme

instance (program : List Stmt) (distances : Distances) (d : Definition) :
    Decidable (d.PrecedesUses program distances) :=
  inferInstanceAs (Decidable (∀ x ∈ programSites program, ∀ use ∈ x.2.occurrence?,
    use.name.lexeme = d.token.lexeme → ∀ region ∈ x.1.reached? distances[use.id]?,
      d.token.id ∈ (region.declarations program).map Token.id →
        d.token.id < use.name.id ∧ x.1.opening ≠ some use.name.lexeme))

namespace Respelling

/-- The occurrences of a symbol of a text without errors get a name that the text does not have. -/
structure Renames (r : Respelling) (source : String) (program : List Stmt) (d : Definition) :
    Prop where
  clean : (parse source 0).clean = true
  tree : (parse source 0).tree = program
  noError : (resolve program).hasError = false
  defined : d ∈ (resolve program).symbols.definitions
  precedes : d.PrecedesUses program (resolve program).distances
  old : r.old = d.token.lexeme
  picks : ∀ t ∈ tokens source, r.picks t = true ↔ t ∈ d.occurrences
  fits : ∀ t ∈ tokens source, r.Fits t

/-- The scope declares a name that changes. -/
def owns (r : Respelling) (program : List Stmt) (region : Region) : Bool :=
  (region.declarations program).any r.picks

end Respelling

/-- In a scope of the symbol no other name is the former one, and in no scope is one the new one. -/
def Region.Agrees (r : Respelling) (program : List Stmt) (region : Region) : Prop :=
  ∀ t ∈ region.declarations program, r.Fits t ∧
    (r.picks t = false → r.owns program region = true → t.lexeme ≠ r.old)

/-- A use of the symbol is found in a scope that declares it and binds its name by then. Another use
of the name is looked up elsewhere. -/
structure Site.Finds (r : Respelling) (program : List Stmt) (distances : Distances) (p : Site)
    (use : Occurrence) : Prop where
  fits : r.Fits use.name
  picked : r.picks use.name = true → ∃ distance f, distances[use.id]? = some distance ∧
    p.frames[distance]? = some f ∧ r.owns program f.region = true ∧ r.old ∈ f.names
  other : r.picks use.name = false → use.name.lexeme = r.old →
    ∀ region ∈ p.reached? distances[use.id]?, r.owns program region = false

/-- The names at a site tell the symbol from all other ones. -/
structure Site.Agrees (r : Respelling) (program : List Stmt) (distances : Distances)
    (x : Site × Mark) : Prop where
  regions : ∀ region ∈ x.1.regions, region.Agrees r program
  hosts : ∀ s, x.2 = .statement s → x.1.Hosts program s
  finds : ∀ use ∈ x.2.occurrence?, x.1.Finds r program distances use

/-! ## Corresponding scopes -/

theorem rel_getElem? {α β : Type} {R : α → β → Prop} {xs : List α} {ys : List β}
    (h : List.Forall₂ R xs ys) (i : Nat) : Option.Rel R xs[i]? ys[i]? := by
  induction h generalizing i with
  | nil => exact .none
  | cons hxy _ ih =>
    cases i with
    | zero => exact .some hxy
    | succ i => simpa using ih i

section

variable {r : Respelling} {program : List Stmt} {region region' : Region} {use : Occurrence}

/-- What the other text declares in front of a use was declared there under the name of the use. -/
theorem Region.Respells.declares_of_respell (h : Region.Respells r region region')
    (hdecl : ∀ t ∈ region.declarations program, r.Fits t) (hfit : r.Fits use.name)
    (hname : use.name.Names)
    (hd : region'.Declares (Stmt.respellAll r program) (use.respell r).name) :
    region.Declares program use.name := by
  rcases hd with ⟨t', ht', he, hle⟩ | ⟨k, -, hk⟩
  · rw [h.declarations] at ht'
    obtain ⟨t, ht, rfl⟩ := List.mem_map.mp ht'
    exact .inl ⟨t, ht, ((hdecl t ht).respelled_inj hfit he).1, hle⟩
  · exact absurd hk (Token.respelled_ne_spelling hfit hname k)

theorem Region.Respells.declares (h : Region.Respells r region region') {t : Token}
    (ht : t ∈ region.declarations program) (hlexeme : t.lexeme = use.name.lexeme)
    (hle : t.id ≤ use.name.id) (hpicks : r.picks t = r.picks use.name) :
    region'.Declares (Stmt.respellAll r program) (use.respell r).name := by
  refine .inl ⟨t.respell r, ?_, Token.respelled_congr hlexeme hpicks, hle⟩
  rw [h.declarations]
  exact List.mem_map_of_mem ht

/-- Outside the initializer of a variable of its name, a use is found where the name is bound. -/
theorem Mark.Legal.distance_eq {distances : Distances} {p : Site} {m : Mark}
    (h : m.Legal distances p) (huse : use ∈ m.occurrence?)
    (hopening : p.opening ≠ some use.name.lexeme) :
    distances[use.id]? = p.distance? use.name.lexeme := by
  cases m with
  | read use =>
    cases huse
    exact h
  | write target =>
    cases huse
    exact Eq.trans h (Site.target?_eq hopening)
  | _ => cases huse

theorem Mark.occurrence?_respell {m : Mark} (h : use ∈ m.occurrence?) :
    use.respell r ∈ (m.respell r).occurrence? := by
  cases m <;> cases h <;> rfl

theorem Site.Respells.distance?_spelling {p p' : Site} (h : Site.Respells r p p') (k : Keyword) :
    p'.distance? k.spelling = p.distance? k.spelling := by
  have hframes := h.frames
  unfold Site.distance?
  generalize p.frames = frames, p'.frames = frames' at hframes
  induction hframes with
  | nil => rfl
  | cons hf _ ih => rw [List.findIdx?_cons, List.findIdx?_cons, hf.words k, ih]

end

theorem Site.admits_of_isName {p : Site} {t : Token} (h : t.IsName) : p.Admits t :=
  ⟨fun hword => absurd (h.symm.trans hword) nofun, fun hword => absurd (h.symm.trans hword) nofun⟩

/-! ## The occurrences of the symbol -/

namespace Respelling.Renames

variable {r : Respelling} {source : String} {program : List Stmt} {d : Definition}
  {x : Site × Mark} {use : Occurrence} {region : Region} {t : Token}

section

variable (h : r.Renames source program d)

include h

theorem orderly : Orderly program := h.tree ▸ orderly_parse source 0

theorem consistent : (resolve program).symbols.Consistent (tokens source) :=
  h.tree ▸ consistent_of_parse source 0

theorem mem_tokens_of_mem (ht : t ∈ (resolve program).symbols.tokens) :
    t ∈ tokens source ∧ t ∉ d.references := by
  obtain ⟨e, he, rfl⟩ := List.mem_map.mp ht
  have he := Array.mem_toList_iff.mp he
  refine ⟨(h.consistent.references e he).1, fun hmem => ?_⟩
  have hnone := ((h.consistent.references d h.defined).2 _ hmem).2.2.1
  cases hnone.symm.trans ((h.consistent.definition _ e).mpr ⟨he, rfl⟩)

/-- **Of what a scope declares only the symbol changes.** -/
theorem picks_declared (hx : x ∈ programSites program) (hregion : region ∈ x.1.regions)
    (ht : t ∈ region.declarations program) : r.picks t = true ↔ t = d.token := by
  obtain ⟨htoken, hnot⟩ :=
    h.mem_tokens_of_mem (mem_tokens_of_declarations h.orderly hx hregion ht)
  rw [h.picks t htoken, Definition.mem_occurrences, or_iff_left hnot]

theorem owns_iff (hx : x ∈ programSites program) (hregion : region ∈ x.1.regions) :
    r.owns program region = true ↔ d.token ∈ region.declarations program := by
  rw [owns, List.any_eq_true]
  constructor
  · rintro ⟨t, ht, hpicks⟩
    exact (h.picks_declared hx hregion ht).mp hpicks ▸ ht
  · exact fun ht => ⟨_, ht, (h.picks_declared hx hregion ht).mpr rfl⟩

/-- A use of a name is an identifier of the text, and declares nothing. -/
theorem mem_tokens_of_use (hx : x ∈ programSites program) (huse : use ∈ x.2.occurrence?)
    (hname : use.name.IsName) : use.name ∈ tokens source ∧ use.name ≠ d.token := by
  have hnames : (Stmt.namingsAll program).map Naming.token = names (tokens source) :=
    h.tree ▸ names_of_clean source 0 h.clean
  have hused := (Stmt.uses_sitesAll program h.orderly.regular x hx use huse).resolve_right
    fun ⟨_, k, hk⟩ => absurd (hname.symm.trans hk.isWord) nofun
  refine ⟨(mem_names.mp (hnames ▸ List.mem_map_of_mem hused)).1, fun he => ?_⟩
  -- the identifiers of a text differ, so none of them both uses and declares
  have hintroduced : (d.token, d.kind) ∈ Stmt.introducedAll program := by
    rw [← definitions_of_resolve, SymbolGraph.declarations]
    exact List.mem_map.mpr ⟨d, Array.mem_toList_iff.mpr h.defined, rfl⟩
  obtain ⟨n, hn, hdecl⟩ := List.mem_filterMap.mp hintroduced
  have htoken : n.token = d.token := by
    unfold Naming.declaration? at hdecl
    split at hdecl
    · exact (Prod.mk.inj (Option.some.inj hdecl)).1
    · cases hdecl
  have hnodup := h.tree ▸ nodup_namings h.clean
  have hsame := List.inj_on_of_nodup_map hnodup hused hn (he.trans htoken.symm)
  rw [← hsame] at hdecl
  cases hdecl

/-- The uses that change are the references of the symbol. -/
theorem picks_use (hx : x ∈ programSites program) (huse : use ∈ x.2.occurrence?)
    (hname : use.name.IsName) : r.picks use.name = true ↔ use.name ∈ d.references := by
  obtain ⟨htoken, hne⟩ := h.mem_tokens_of_use hx huse hname
  rw [h.picks _ htoken, Definition.mem_occurrences, or_iff_right hne]

theorem names_use (hx : x ∈ programSites program) (huse : use ∈ x.2.occurrence?)
    (hname : use.name.IsName) : use.name.Names :=
  ⟨hname, spelled_tokens source _ (h.mem_tokens_of_use hx huse hname).1⟩

/-- **A use that changes is found where the symbol is declared**, and not in the initializer of a
variable of its name. -/
theorem found_of_picks (hx : x ∈ programSites program) (huse : use ∈ x.2.occurrence?)
    (hname : use.name.IsName) (hpicks : r.picks use.name = true) :
    ∃ distance region, (resolve program).distances[use.id]? = some distance ∧
      x.1.opening ≠ some use.name.lexeme ∧ x.1.regions[distance]? = some region ∧
      region.Binds program use.name d.token := by
  have hord := h.orderly
  have hmem := (h.picks_use hx huse hname).mp hpicks
  have htoken := (h.mem_tokens_of_use hx huse hname).1
  have hdef := (h.consistent.definitionOf _ htoken d).mpr ⟨h.defined, hmem⟩
  have hrefers := (traced_of_resolve hord.regular hord.ids hord.words hx huse
    (Site.admits_of_isName hname)).2 hname
  have hused : (resolve program).symbols.used[use.name.id]? ≠ none := fun hnone => by
    cases hdef.symm.trans (SymbolGraph.definitionOf_eq_none hnone)
  have hopening : x.1.opening ≠ some use.name.lexeme := fun ho => hused (hrefers.opening ho)
  obtain ⟨distance, hdistance⟩ := Option.ne_none_iff_exists'.mp fun hnone =>
    hused (hrefers.missing hnone)
  obtain ⟨region, t, hregion, hbinds, hlinks⟩ := hrefers.declaration distance hdistance hopening
  obtain ⟨e, he, rfl⟩ := hlinks.definitionOf
  obtain rfl := Option.some.inj (he.symm.trans hdef)
  exact ⟨distance, region, hdistance, hopening, hregion, hbinds⟩

/-- **Another use of the name is looked up where the symbol is not declared.** -/
theorem not_owns_of_not_picks (hx : x ∈ programSites program) (huse : use ∈ x.2.occurrence?)
    (hname : use.name.IsName) (hpicks : r.picks use.name = false) (hold : use.name.lexeme = r.old)
    (hregion : region ∈ x.1.regions)
    (hreached : region ∈ x.1.reached? (resolve program).distances[use.id]?) :
    r.owns program region = false := by
  refine Bool.eq_false_iff.mpr fun howns => ?_
  have hord := h.orderly
  have hdecl := (h.owns_iff hx hregion).mp howns
  have hlexeme := (hold.trans h.old).symm
  obtain ⟨hlt, hopening⟩ :=
    h.precedes x hx use huse hlexeme.symm region hreached (List.mem_map_of_mem hdecl)
  obtain ⟨hlocated, hrefers⟩ := traced_of_resolve hord.regular hord.ids hord.words hx huse
    (Site.admits_of_isName hname)
  cases hdistance : (resolve program).distances[use.id]? with
  | none =>
    exact hlocated.missing.mp hdistance region hregion
      (.inl ⟨d.token, hdecl, hlexeme, Nat.le_of_lt hlt⟩)
  | some distance =>
    -- the scope declares one symbol of the name, and the use is linked to it
    rw [hdistance] at hreached
    obtain ⟨region', t, hregion', hbinds, hlinks⟩ :=
      (hrefers hname).declaration distance hdistance hopening
    obtain rfl := Option.some.inj (hreached.symm.trans hregion')
    obtain ⟨e, he, rfl⟩ := hlinks.definitionOf
    obtain ⟨hdefined, hmem⟩ :=
      (h.consistent.definitionOf _ (h.mem_tokens_of_use hx huse hname).1 e).mp he
    have hid := eq_of_declared hord h.noError hx hregion hdecl hbinds.mem
      (hlexeme.trans hbinds.lexeme.symm)
    obtain rfl := Option.some.inj (((h.consistent.definition _ e).mpr ⟨hdefined, rfl⟩).symm.trans
      ((h.consistent.definition _ d).mpr ⟨h.defined, hid⟩))
    rw [(h.picks_use hx huse hname).mpr hmem] at hpicks
    cases hpicks

theorem fits_word (ht : t ∈ Stmt.wordsAll program) : r.Fits t :=
  h.fits t (mem_tokens_of_word source 0 (h.tree ▸ ht))

theorem picks_eq (hx : x ∈ programSites program) (huse : use ∈ x.2.occurrence?)
    (hname : use.name.IsName) {distance : Nat}
    (hdistance : (resolve program).distances[use.id]? = some distance)
    (hregion : x.1.regions[distance]? = some region) (ht : t ∈ region.declarations program)
    (hlexeme : t.lexeme = use.name.lexeme) : r.picks t = r.picks use.name := by
  have hmem := List.mem_of_getElem? hregion
  cases hpicks : r.picks use.name with
  | true =>
    obtain ⟨distance', region', hdistance', -, hregion', hbinds⟩ :=
      h.found_of_picks hx huse hname hpicks
    obtain rfl := Option.some.inj (hdistance.symm.trans hdistance')
    obtain rfl := Option.some.inj (hregion.symm.trans hregion')
    have hid := eq_of_declared h.orderly h.noError hx hmem ht hbinds.mem
      (hlexeme.trans hbinds.lexeme.symm)
    have htoken := h.mem_tokens_of_mem (mem_tokens_of_declarations h.orderly hx hmem ht)
    obtain rfl := eq_of_id_tokens source htoken.1 (h.consistent.references d h.defined).1 hid
    exact (h.picks_declared hx hmem ht).mpr rfl
  | false =>
    refine Bool.eq_false_iff.mpr fun hpicked => ?_
    have htoken := h.mem_tokens_of_mem (mem_tokens_of_declarations h.orderly hx hmem ht)
    have hold := hlexeme.symm.trans ((h.fits t htoken.1).old hpicked)
    have hnot := h.not_owns_of_not_picks hx huse hname hpicks hold hmem
      (by rw [hdistance]; exact hregion)
    rw [Respelling.owns, List.any_eq_false] at hnot
    exact hnot t ht hpicked

variable (ho' : Orderly (Stmt.respellAll r program)) {x' : Site × Mark}

include ho'

/-- **A use is found where it was found before.** -/
theorem distance_of_isName (hpair : Site.Pairs r x x') (hx : x ∈ programSites program)
    (hx' : x' ∈ programSites (Stmt.respellAll r program)) (huse : use ∈ x.2.occurrence?)
    (hname : use.name.IsName) :
    (resolve (Stmt.respellAll r program)).distances[use.id]? =
      (resolve program).distances[use.id]? := by
  have hord := h.orderly
  have huse' : use.respell r ∈ x'.2.occurrence? := by
    rw [hpair.mark]
    exact Mark.occurrence?_respell huse
  have hlocated := (traced_of_resolve hord.regular hord.ids hord.words hx huse
    (Site.admits_of_isName hname)).1
  have hlocated' := (traced_of_resolve ho'.regular ho'.ids ho'.words hx' huse'
    (Site.admits_of_isName (t := (use.respell r).name) hname)).1
  have hfit := h.fits _ (h.mem_tokens_of_use hx huse hname).1
  have hnames := h.names_use hx huse hname
  -- what declares the name in the other text declared it before
  have hback {i : Nat} {region' : Region} (hregion' : x'.1.regions[i]? = some region')
      (hd : region'.Declares (Stmt.respellAll r program) (use.respell r).name) :
      ∃ region, x.1.regions[i]? = some region ∧ region.Declares program use.name := by
    have hrel := rel_getElem? hpair.site.regions i
    rw [hregion'] at hrel
    cases hregion : x.1.regions[i]? with
    | none =>
      rw [hregion] at hrel
      cases hrel
    | some region =>
      rw [hregion] at hrel
      cases hrel with
      | some hrel =>
        refine ⟨region, rfl, hrel.declares_of_respell (fun t ht => ?_) hfit hnames hd⟩
        exact fits_declarations hord (fun _ => h.fits_word) hx (List.mem_of_getElem? hregion) ht
  cases hT : (resolve program).distances[use.id]? with
  | none =>
    refine hlocated'.missing.mpr fun region' hregion' hd => ?_
    obtain ⟨i, hi⟩ := List.getElem?_of_mem hregion'
    obtain ⟨region, hregion, hdecl⟩ := hback hi hd
    exact hlocated.missing.mp hT region (List.mem_of_getElem? hregion) hdecl
  | some distance =>
    obtain ⟨region, hregion, hdecl, hinner⟩ := (hlocated.distance distance).mp hT
    have hrel := rel_getElem? hpair.site.regions distance
    rw [hregion] at hrel
    generalize hregion' : x'.1.regions[distance]? = o at hrel
    cases hrel with
    | @some _ region' hrel =>
      obtain ⟨t, ht, hlexeme, hle⟩ := hdecl.resolve_right fun ⟨k, _, hk⟩ => hnames.lexeme_ne k hk
      have hpicks := h.picks_eq hx huse hname hT hregion ht hlexeme
      refine (hlocated'.distance distance).mpr ⟨region', hregion',
        hrel.declares ht hlexeme hle hpicks, fun i hi inner' hinner' hd => ?_⟩
      obtain ⟨inner, hget, hdecl⟩ := hback hinner' hd
      exact hinner i hi inner hget hdecl

/-- **No use changes its distance.** -/
theorem distance_eq (hx : x ∈ programSites program) (huse : use ∈ x.2.occurrence?) :
    (resolve (Stmt.respellAll r program)).distances[use.id]? =
      (resolve program).distances[use.id]? := by
  have hord := h.orderly
  obtain ⟨x', hx', hpair⟩ :=
    exists_of_mem_left (programSites_respell hord fun _ => h.fits_word) hx
  rcases Stmt.uses_sitesAll program hord.regular x hx use huse with hused | ⟨hread, k, hk⟩
  · have hnames : (Stmt.namingsAll program).map Naming.token = names (tokens source) :=
      h.tree ▸ names_of_clean source 0 h.clean
    exact h.distance_of_isName ho' hpair hx hx' huse
      (mem_names.mp (hnames ▸ List.mem_map_of_mem hused)).2
  · -- the words of the language are found where their scopes are
    have hnot : r.picks use.name = false := Token.not_picks_of_terminal (by simp [hk.isWord.terminal])
    have hlegal : (resolve program).distances[use.id]? = x.1.distance? use.name.lexeme := by
      have := legal_of_resolve hord.regular hord.ids h.noError (fun _ _ => rfl) x hx
      rwa [hread] at this
    have hlegal' : (resolve (Stmt.respellAll r program)).distances[use.id]? =
        x'.1.distance? (use.name.respelled r) := by
      have := legal_of_resolve ho'.regular ho'.ids
        (noError_respell hord ho' (fun _ => h.fits_word) h.noError) (fun _ _ => rfl) x' hx'
      rwa [hpair.mark, hread] at this
    rw [hlegal, hlegal', Token.respelled_of_not_picks hnot, hk.lexeme,
      hpair.site.distance?_spelling k]

end

variable (h : r.Renames source program d)

include h

theorem region_agrees (hx : x ∈ programSites program) (hregion : region ∈ x.1.regions) :
    region.Agrees r program := by
  intro t ht
  have htoken := h.mem_tokens_of_mem (mem_tokens_of_declarations h.orderly hx hregion ht)
  refine ⟨h.fits t htoken.1, fun hpicks howns hold => ?_⟩
  -- two declarations of the name in one scope are one
  have hdecl := (h.owns_iff hx hregion).mp howns
  have hid := eq_of_declared h.orderly h.noError hx hregion ht hdecl (hold.trans h.old)
  obtain rfl := eq_of_id_tokens source htoken.1 (h.consistent.references d h.defined).1 hid
  rw [(h.picks_declared hx hregion ht).mpr rfl] at hpicks
  cases hpicks

/-- The symbol is no word of the language, and it becomes none. -/
theorem old_ne_spelling (k : Keyword) : r.old ≠ k.spelling ∧ r.new ≠ k.spelling := by
  have htoken := (h.consistent.references d h.defined).1
  have hpicks := (h.picks d.token htoken).mpr List.mem_cons_self
  have hname : d.token.IsName :=
    Token.terminal_eq_identifier.mp (eq_of_beq (Bool.and_eq_true_iff.mp hpicks).1)
  refine ⟨?_, (h.fits d.token htoken).word hpicks k⟩
  rw [h.old]
  exact Token.Names.lexeme_ne ⟨hname, spelled_tokens source _ htoken⟩ k

theorem finds (hx : x ∈ programSites program) (huse : use ∈ x.2.occurrence?) :
    x.1.Finds r program (resolve program).distances use := by
  have hord := h.orderly
  rcases Stmt.uses_sitesAll program hord.regular x hx use huse with hused | ⟨-, k, hk⟩
  · have hnames : (Stmt.namingsAll program).map Naming.token = names (tokens source) :=
      h.tree ▸ names_of_clean source 0 h.clean
    have hname : use.name.IsName := (mem_names.mp (hnames ▸ List.mem_map_of_mem hused)).2
    have hfit := h.fits _ (h.mem_tokens_of_use hx huse hname).1
    refine ⟨hfit, fun hpicks => ?_, fun hpicks hold region hreached => ?_⟩
    · obtain ⟨distance, region, hdistance, hopening, hregion, hbinds⟩ :=
        h.found_of_picks hx huse hname hpicks
      have hlegal : x.1.distance? use.name.lexeme = some distance := by
        have := legal_of_resolve hord.regular hord.ids h.noError (fun _ _ => rfl) x hx
        rw [← hdistance]
        exact (this.distance_eq huse hopening).symm
      rw [Site.regions, List.getElem?_map, Option.map_eq_some_iff] at hregion
      obtain ⟨f, hf, rfl⟩ := hregion
      obtain ⟨hlt, hcontains, -⟩ := List.findIdx?_eq_some_iff_getElem.mp hlegal
      rw [List.getElem?_eq_getElem hlt] at hf
      cases hf
      refine ⟨distance, _, hdistance, List.getElem?_eq_getElem hlt, ?_, ?_⟩
      · exact (h.owns_iff hx (List.mem_map_of_mem (List.getElem_mem hlt))).mpr hbinds.mem
      · rw [← hfit.old hpicks]
        exact List.contains_iff_mem.mp hcontains
    · refine h.not_owns_of_not_picks hx huse hname hpicks hold ?_ hreached
      unfold Site.reached? at hreached
      split at hreached
      · exact List.mem_of_getElem? hreached
      · exact List.mem_of_getLast? hreached
  · have hnot : r.picks use.name = false :=
      Token.not_picks_of_terminal (by simp [hk.isWord.terminal])
    refine ⟨⟨fun hp => ?_, fun hp => ?_, fun _ he => ?_⟩, fun hp => ?_, fun _ he => ?_⟩
    · cases hnot.symm.trans hp
    · cases hnot.symm.trans hp
    · exact (h.old_ne_spelling k).2 (he.symm.trans hk.lexeme)
    · cases hnot.symm.trans hp
    · exact absurd (he.symm.trans hk.lexeme) (h.old_ne_spelling k).1

/-- **All sites of the text agree with the renaming.** -/
theorem agrees (hx : x ∈ programSites program) :
    Site.Agrees r program (resolve program).distances x where
  regions _ hregion := h.region_agrees hx hregion
  hosts := (holds_programSites h.orderly x hx).hosts
  finds _ huse := h.finds hx huse

end Respelling.Renames

end Lox
