import Lox.Proofs.Binding.Fewer
import Lox.Proofs.Binding.Reported
import Lox.Proofs.Syntax.Namings

/-!
# Where the names of scopes stand

Whatever a scope declares is named at a site in it, and a statement declares its name in the scope
in which it stands. Without a broken rule no scope declares a name twice.

* `Region.Placed`: the declarations of a scope are named at sites in it;
* `Site.Holds`: all scopes around a site are placed, and a statement at it declares in the innermost
  one; **`Stmt.holds_sites`**, …: the sites of every part of a program hold its declarations;
* **`Stmt.uses_sites`**, …: the names that are read or written at sites declare nothing;
* `Orderly`: a program whose parts are numbered in their order, `noError_iff`: it is without errors if
  it breaks no rule, **`eq_of_declared`**: then its scopes declare different names.
-/

namespace Lox

/-- What a scope declares is named at sites in this scope. -/
def Region.Placed (program : List Stmt) (sites : List (Site × Mark)) (r : Region) : Prop :=
  ∀ t ∈ r.declarations program, ∃ q, (q, Mark.name t) ∈ sites ∧ q.regions.head? = some r

/-- A statement declares its name in the scope in which it stands. -/
def Site.Hosts (program : List Stmt) (p : Site) (s : Stmt) : Prop :=
  ∀ t ∈ s.declared?, ∃ r ∈ p.regions.head?, t ∈ r.declarations program

/-- All scopes around a site are placed, and a statement at it declares in the innermost one. -/
structure Site.Holds (program : List Stmt) (sites : List (Site × Mark)) (x : Site × Mark) :
    Prop where
  placed : ∀ r ∈ x.1.regions, r.Placed program sites
  hosts : ∀ s, x.2 = .statement s → x.1.Hosts program s

/-! ## Declarations -/

section

variable {program : List Stmt} {sites : List (Site × Mark)} {p : Site}

theorem Stmt.name_mem_sites {s : Stmt} {t : Token} (h : s.declared? = some t) :
    (p, Mark.name t) ∈ s.sites p := by
  cases s with
  | var name _ =>
    cases h
    exact List.mem_cons_of_mem _ List.mem_cons_self
  | function f =>
    cases h
    rw [Stmt.sites]
    exact List.mem_cons_of_mem _ List.mem_cons_self
  | «class» c =>
    obtain ⟨name, superclass, methods, span⟩ := c
    cases h
    rw [Stmt.sites, Class.sites]
    exact List.mem_cons_of_mem _ List.mem_cons_self
  | _ => cases h

theorem Site.regions_after (s : Stmt) : (p.after s).regions = p.regions := by
  unfold Site.after
  cases s.declared? with
  | none => rfl
  | some name => exact p.regions_declare name.lexeme

theorem Site.regions_afterOption (s : Option Stmt) : (p.afterOption s).regions = p.regions := by
  cases s with
  | none => rfl
  | some s => exact p.regions_after s

/-- What several statements declare is named at sites in the scope in which they stand. -/
theorem Stmt.exists_name_sites {ss : List Stmt} {t : Token}
    (ht : t ∈ ss.filterMap Stmt.declared?) :
    ∃ q, (q, Mark.name t) ∈ Stmt.sitesAll p ss ∧ q.regions = p.regions := by
  induction ss generalizing p with
  | nil => cases ht
  | cons s rest ih =>
    obtain ⟨u, hu, hdecl⟩ := List.mem_filterMap.mp ht
    rw [Stmt.sitesAll]
    rcases List.mem_cons.mp hu with rfl | hu
    · exact ⟨p, List.mem_append_left _ (Stmt.name_mem_sites hdecl), rfl⟩
    · obtain ⟨q, hq, hregions⟩ := ih (p := p.after s) (List.mem_filterMap.mpr ⟨u, hu, hdecl⟩)
      exact ⟨q, List.mem_append_right _ hq, hregions.trans (p.regions_after s)⟩

theorem Site.hosts_of_not_declares {s : Stmt} (h : s.declares = false) : p.Hosts program s := by
  have hnone : s.declared? = none := by cases s <;> first | rfl | cases h
  intro t ht
  rw [hnone] at ht
  cases ht

end

/-! ## Sites -/

/-- The sites hold their declarations. -/
def AllHold (program : List Stmt) (sites xs : List (Site × Mark)) : Prop :=
  ∀ x ∈ xs, Site.Holds program sites x

namespace AllHold

variable {program : List Stmt} {sites xs ys : List (Site × Mark)} {p : Site} {m : Mark}

theorem nil : AllHold program sites [] := fun _ h => absurd h List.not_mem_nil

theorem cons (h : Site.Holds program sites (p, m)) (hxs : AllHold program sites xs) :
    AllHold program sites ((p, m) :: xs) :=
  List.forall_mem_cons.mpr ⟨h, hxs⟩

theorem append (hxs : AllHold program sites xs) (hys : AllHold program sites ys) :
    AllHold program sites (xs ++ ys) :=
  List.forall_mem_append.mpr ⟨hxs, hys⟩

theorem cons' (hp : ∀ r ∈ p.regions, r.Placed program sites) (hm : ∀ s, m ≠ .statement s)
    (hxs : AllHold program sites xs) : AllHold program sites ((p, m) :: xs) :=
  hxs.cons ⟨hp, fun s hs => absurd hs (hm s)⟩

theorem mark (hp : ∀ r ∈ p.regions, r.Placed program sites) {marks : List Mark}
    (hm : ∀ m ∈ marks, ∀ s, m ≠ .statement s) : AllHold program sites (p.mark marks) := by
  intro x hx
  obtain ⟨m, hmem, rfl⟩ := List.mem_map.mp hx
  exact ⟨hp, fun s hs => absurd hs (hm m hmem s)⟩

end AllHold

mutual

theorem Expr.marks_ne_statement (s : Stmt) : (e : Expr) → ∀ m ∈ e.marks, m ≠ .statement s
  | .literal _ => by simp [Expr.marks]
  | .grouping e | .unary _ _ e | .get e _ => e.marks_ne_statement s
  | .binary a _ _ b | .logical a _ _ b | .set a _ b =>
    List.forall_mem_append.mpr ⟨a.marks_ne_statement s, b.marks_ne_statement s⟩
  | .variable _ | .this _ | .super _ _ => by simp [Expr.marks]
  | .assign _ e => by
    simp only [Expr.marks, List.forall_mem_cons]
    exact ⟨nofun, nofun, e.marks_ne_statement s⟩
  | .call e es _ =>
    List.forall_mem_append.mpr ⟨e.marks_ne_statement s, Expr.marksAll_ne_statement s es⟩

theorem Expr.marksAll_ne_statement (s : Stmt) :
    (es : List Expr) → ∀ m ∈ Expr.marksAll es, m ≠ .statement s
  | [] => by simp [Expr.marksAll]
  | e :: rest =>
    List.forall_mem_append.mpr ⟨e.marks_ne_statement s, Expr.marksAll_ne_statement s rest⟩

end

section

variable {program : List Stmt} {sites : List (Site × Mark)} {p : Site}

namespace AllHold

theorem expression (hp : ∀ r ∈ p.regions, r.Placed program sites) (e : Expr) :
    AllHold program sites (e.sites p) :=
  mark hp fun m hm s => e.marks_ne_statement s m hm

theorem optional (hp : ∀ r ∈ p.regions, r.Placed program sites) (e : Option Expr) :
    AllHold program sites (Expr.sitesOption p e) := by
  cases e with
  | none => exact nil
  | some e => exact expression hp e

theorem occurrence (hp : ∀ r ∈ p.regions, r.Placed program sites) (use : Option Occurrence) :
    AllHold program sites (Occurrence.sitesOption p use) := by
  cases use with
  | none => exact nil
  | some use => exact nil.cons' hp nofun

end AllHold

theorem Site.placed_enter {q : Site} {r : Region} (hp : ∀ r ∈ p.regions, r.Placed program sites)
    (hq : q.regions = r :: p.regions)
    (hr : ∀ t ∈ r.declarations program, ∃ z, (z, Mark.name t) ∈ sites ∧ z.regions = q.regions) :
    ∀ r ∈ q.regions, r.Placed program sites := by
  rw [hq]
  refine List.forall_mem_cons.mpr ⟨fun t ht => ?_, hp⟩
  obtain ⟨z, hz, hregions⟩ := hr t ht
  exact ⟨z, hz, by rw [hregions, hq]; rfl⟩

theorem Site.placed_after (hp : ∀ r ∈ p.regions, r.Placed program sites) (s : Stmt) :
    ∀ r ∈ (p.after s).regions, r.Placed program sites := by
  rwa [p.regions_after s]

theorem Site.placed_enterClass (hp : ∀ r ∈ p.regions, r.Placed program sites) (c : Class) :
    ∀ r ∈ (p.enterClass c).regions, r.Placed program sites := by
  have hnone {r : Region} (hr : r.declarations program = []) : r.Placed program sites := by
    intro t ht
    rw [hr] at ht
    cases ht
  rw [p.regions_enterClass c]
  refine List.forall_mem_cons.mpr ⟨hnone rfl, ?_⟩
  split
  · exact hp
  · exact List.forall_mem_cons.mpr ⟨hnone rfl, hp⟩

mutual

/-- **Every site of a statement holds its declarations.** -/
theorem Stmt.holds_sites {p : Site} (hp : ∀ r ∈ p.regions, r.Placed program sites) :
    (s : Stmt) → s.Regular → p.Hosts program s → s.sites p ⊆ sites →
    AllHold program sites (s.sites p)
  | .expression e, _, hh, _ | .print e, _, hh, _ =>
    .cons ⟨hp, fun _ hs => by cases hs; exact hh⟩ (.expression hp e)
  | .var name initializer, _, hh, _ => by
    rw [Stmt.sites]
    exact .cons ⟨hp, fun _ hs => by cases hs; exact hh⟩
      (.cons' hp nofun (.optional (p := p.initializing name.lexeme) hp initializer))
  | .block body, hr, hh, hs => by
    cases hr with
    | block hbody =>
      rw [Stmt.sites, List.cons_subset] at hs
      have hinner := Site.placed_enter (q := p.enter (.block body) []) hp rfl fun t ht =>
        let ⟨z, hz, hregions⟩ := Stmt.exists_name_sites ht
        ⟨z, hs.2 hz, hregions⟩
      rw [Stmt.sites]
      exact .cons ⟨hp, fun _ hs => by cases hs; exact hh⟩
        (Stmt.holds_sitesAll hinner body hbody (fun t ht => ⟨_, rfl, ht⟩) hs.2)
  | .ifElse condition thenBranch elseBranch, hr, hh, hs => by
    cases hr with
    | ifElse _ hthen hdecl helse hdecl' =>
      rw [Stmt.sites, List.cons_subset, List.append_subset, List.append_subset] at hs
      obtain ⟨-, ⟨-, hs₁⟩, hs₂⟩ := hs
      rw [Stmt.sites]
      exact .cons ⟨hp, fun _ hs => by cases hs; exact hh⟩ (.append (.append (.expression hp condition)
        (thenBranch.holds_sites hp hthen (Site.hosts_of_not_declares hdecl) hs₁))
        (Stmt.holds_sitesOption hp elseBranch helse
          (fun s hs => Site.hosts_of_not_declares (hdecl' s hs)) hs₂))
  | .whileLoop condition body, hr, hh, hs => by
    cases hr with
    | whileLoop _ hbody hdecl =>
      rw [Stmt.sites, List.cons_subset, List.append_subset] at hs
      rw [Stmt.sites]
      exact .cons ⟨hp, fun _ hs => by cases hs; exact hh⟩ (.append (.expression hp condition)
        (body.holds_sites (p := p.enterLoop) hp hbody (Site.hosts_of_not_declares hdecl) hs.2.2))
  | .forLoop initializer condition increment body, hr, hh, hs => by
    cases hr with
    | forLoop hinit _ _ _ hbody hdecl =>
      rw [Stmt.sites, List.cons_subset] at hs
      simp only [List.append_subset] at hs
      obtain ⟨-, ⟨⟨hs₁, -⟩, -⟩, hs₂⟩ := hs
      have hhosts : ∀ s ∈ initializer,
          (p.enter (.clauses initializer condition increment body) []).Hosts program s :=
        fun s hs t ht => ⟨_, rfl, by
          rw [Option.mem_def.mp hs]
          exact Option.mem_toList.mpr ht⟩
      have hinner := Site.placed_enter (q := p.enter (.clauses initializer condition increment body) [])
        hp rfl fun t ht => by
          obtain ⟨s, hinit, hdecl⟩ := Option.bind_eq_some_iff.mp (Option.mem_toList.mp ht)
          subst hinit
          exact ⟨_, hs₁ (Stmt.name_mem_sites hdecl), rfl⟩
      have hbehind : ∀ r ∈ ((p.enter (.clauses initializer condition increment body) []).afterOption
          initializer).regions, r.Placed program sites := by
        rwa [Site.regions_afterOption]
      rw [Stmt.sites]
      exact .cons ⟨hp, fun _ hs => by cases hs; exact hh⟩ (.append (.append (.append
        (Stmt.holds_sitesOption hinner initializer hinit hhosts hs₁) (.optional hbehind condition))
        (.optional hbehind increment))
        (body.holds_sites (p := ((p.enter _ []).afterOption initializer).enterLoop) hbehind hbody
          (Site.hosts_of_not_declares hdecl) hs₂))
  | .function declaration, hr, hh, hs => by
    cases hr with
    | function hf =>
      rw [Stmt.sites, List.cons_subset, List.cons_subset] at hs
      rw [Stmt.sites]
      exact .cons ⟨hp, fun _ hs => by cases hs; exact hh⟩ (.cons' hp nofun
        (declaration.holds_sites .function (Site.placed_after hp (.function declaration)) hf hs.2.2))
  | .class declaration, hr, hh, hs => by
    cases hr with
    | «class» hc =>
      rw [Stmt.sites, List.cons_subset] at hs
      rw [Stmt.sites]
      exact .cons ⟨hp, fun _ hs => by cases hs; exact hh⟩ (declaration.holds_sites hp hc hs.2)
  | .return _ value, _, hh, _ => by
    rw [Stmt.sites]
    exact .cons ⟨hp, fun _ hs => by cases hs; exact hh⟩ (.cons' hp nofun (.optional hp value))
  | .break _, _, hh, _ | .continue _, _, hh, _ =>
    .cons ⟨hp, fun _ hs => by cases hs; exact hh⟩ (.cons' hp nofun .nil)

theorem Stmt.holds_sitesAll {p : Site} (hp : ∀ r ∈ p.regions, r.Placed program sites) :
    (ss : List Stmt) → (∀ s ∈ ss, s.Regular) →
    (∀ t ∈ ss.filterMap Stmt.declared?, ∃ r ∈ p.regions.head?, t ∈ r.declarations program) →
    Stmt.sitesAll p ss ⊆ sites → AllHold program sites (Stmt.sitesAll p ss)
  | [], _, _, _ => .nil
  | s :: rest, hr, hh, hs => by
    obtain ⟨hs₁, hrest⟩ := List.forall_mem_cons.mp hr
    rw [Stmt.sitesAll, List.append_subset] at hs
    rw [Stmt.sitesAll]
    refine .append (s.holds_sites hp hs₁ (fun t ht => hh t ?_) hs.1)
      (Stmt.holds_sitesAll (Site.placed_after hp s) rest hrest (fun t ht => ?_) hs.2)
    · exact List.mem_filterMap.mpr ⟨s, List.mem_cons_self, ht⟩
    · obtain ⟨u, hu, hdecl⟩ := List.mem_filterMap.mp ht
      rw [p.regions_after s]
      exact hh t (List.mem_filterMap.mpr ⟨u, List.mem_cons_of_mem s hu, hdecl⟩)

theorem Stmt.holds_sitesOption {p : Site} (hp : ∀ r ∈ p.regions, r.Placed program sites) :
    (s : Option Stmt) → (∀ t ∈ s, Stmt.Regular t) → (∀ t ∈ s, p.Hosts program t) →
    Stmt.sitesOption p s ⊆ sites → AllHold program sites (Stmt.sitesOption p s)
  | none, _, _, _ => .nil
  | some s, hr, hh, hs => s.holds_sites hp (hr s rfl) (hh s rfl) hs

theorem Function.holds_sites (kind : FunctionKind) {p : Site}
    (hp : ∀ r ∈ p.regions, r.Placed program sites) :
    (f : Function) → f.Regular → f.sites kind p ⊆ sites → AllHold program sites (f.sites kind p)
  | ⟨name, params, body, span⟩, hr, hs => by
    cases hr with
    | mk _ hparams hbody =>
      rw [Function.sites, List.append_subset] at hs
      have hinner := Site.placed_enter (q := p.enterFunction kind ⟨name, params, body, span⟩) hp rfl
        fun t ht => by
          rcases List.mem_append.mp ht with ht | ht
          · exact ⟨_, hs.1 (List.mem_map_of_mem (List.mem_map_of_mem ht)), rfl⟩
          · obtain ⟨z, hz, hregions⟩ := Stmt.exists_name_sites ht
            exact ⟨z, hs.2 hz, hregions⟩
      rw [Function.sites]
      refine .append (.mark hinner fun m hm s => ?_) (Stmt.holds_sitesAll hinner body hbody
        (fun t ht => ⟨_, rfl, List.mem_append_right _ ht⟩) hs.2)
      obtain ⟨t, -, rfl⟩ := List.mem_map.mp hm
      exact nofun

theorem Function.holds_sitesMethods {p : Site} (hp : ∀ r ∈ p.regions, r.Placed program sites) :
    (fs : List Function) → (∀ f ∈ fs, f.Regular) → Function.sitesMethods p fs ⊆ sites →
    AllHold program sites (Function.sitesMethods p fs)
  | [], _, _ => .nil
  | f :: rest, hr, hs => by
    obtain ⟨hf, hrest⟩ := List.forall_mem_cons.mp hr
    rw [Function.sitesMethods, List.append_subset] at hs
    rw [Function.sitesMethods]
    exact .append (f.holds_sites f.methodKind hp hf hs.1)
      (Function.holds_sitesMethods hp rest hrest hs.2)

theorem Class.holds_sites {p : Site} (hp : ∀ r ∈ p.regions, r.Placed program sites) :
    (c : Class) → c.Regular → c.sites p ⊆ sites → AllHold program sites (c.sites p)
  | ⟨name, superclass, methods, span⟩, hr, hs => by
    cases hr with
    | mk _ _ hmethods =>
      rw [Class.sites, List.cons_subset, List.append_subset] at hs
      rw [Class.sites]
      exact .cons' hp nofun (.append (.occurrence hp superclass) (Function.holds_sitesMethods
        (Site.placed_enterClass hp ⟨name, superclass, methods, span⟩) methods hmethods hs.2.2))

end

end

/-! ## Uses -/

/-- The names that are read or written at sites are kept as uses; the words of the language are only
read. -/
def AllUse (namings : List Naming) (xs : List (Site × Mark)) : Prop :=
  ∀ x ∈ xs, ∀ use ∈ x.2.occurrence?,
    ⟨use.name, .uses⟩ ∈ namings ∨ x.2 = .read use ∧ ∃ k, use.name.Spells k

namespace AllUse

variable {ns ms : List Naming} {xs ys : List (Site × Mark)} {p : Site} {m : Mark} {o : Occurrence}

theorem nil : AllUse ns [] := fun _ h => absurd h List.not_mem_nil

theorem mono (hxs : AllUse ns xs) (hns : ns ⊆ ms) : AllUse ms xs :=
  fun x hx use huse => (hxs x hx use huse).imp_left fun h => hns h

theorem append (hxs : AllUse ns xs) (hys : AllUse ms ys) : AllUse (ns ++ ms) (xs ++ ys) :=
  List.forall_mem_append.mpr ⟨hxs.mono (List.subset_append_left _ _),
    hys.mono (List.subset_append_right _ _)⟩

theorem cons (hm : m.occurrence? = none) (hxs : AllUse ns xs) : AllUse ns ((p, m) :: xs) :=
  List.forall_mem_cons.mpr ⟨fun _ h => absurd (hm.symm.trans h) nofun, hxs⟩

theorem behind (n : Naming) (hxs : AllUse ns xs) : AllUse (n :: ns) xs :=
  hxs.mono (List.subset_cons_self _ _)

theorem use (hm : m.occurrence? = some o) : AllUse [⟨o.name, .uses⟩] [(p, m)] :=
  List.forall_mem_singleton.mpr fun _ h => .inl (by
    cases hm.symm.trans h
    exact List.mem_cons_self)

theorem word {k : Keyword} (h : o.name.Spells k) (hxs : AllUse ns xs) :
    AllUse ns ((p, .read o) :: xs) :=
  List.forall_mem_cons.mpr ⟨fun _ hu => .inr (by
    cases hu
    exact ⟨rfl, k, h⟩), hxs⟩

end AllUse

mutual

theorem Expr.uses_sites {p : Site} : (e : Expr) → e.Regular → AllUse e.namings (e.sites p)
  | .literal _, _ => .nil
  | .grouping inner, .grouping h => inner.uses_sites h
  | .unary _ _ operand, .unary h => operand.uses_sites h
  | .binary left _ _ right, .binary h₁ h₂ | .logical left _ _ right, .logical h₁ h₂ => by
    rw [Expr.sites, Expr.marks, Site.mark_append]
    exact .append (left.uses_sites h₁) (right.uses_sites h₂)
  | .variable _, _ => .use rfl
  | .assign target value, .assign _ h =>
    AllUse.append (show AllUse [⟨target.name, .uses⟩] [(p, .write target)] from .use rfl)
      (.cons rfl (value.uses_sites h))
  | .call callee arguments _, .call h₁ h₂ => by
    rw [Expr.sites, Expr.marks, Site.mark_append]
    exact .append (callee.uses_sites h₁) (Expr.uses_sitesAll arguments h₂)
  | .get object _, .get h _ => (object.uses_sites h).mono (List.subset_append_left _ _)
  | .set object name value, .set h₁ _ h₂ => by
    rw [Expr.sites, Expr.marks, Site.mark_append]
    exact .append (object.uses_sites h₁) ((value.uses_sites h₂).behind _)
  | .this _, .this h => .word h .nil
  | .super _ _, .super h _ => .word h (.cons rfl .nil)

theorem Expr.uses_sitesAll {p : Site} : (es : List Expr) → (∀ e ∈ es, e.Regular) →
    AllUse (Expr.namingsAll es) (p.mark (Expr.marksAll es))
  | [], _ => .nil
  | e :: rest, h => by
    obtain ⟨he, hrest⟩ := List.forall_mem_cons.mp h
    rw [Expr.marksAll, Site.mark_append]
    exact .append (e.uses_sites he) (Expr.uses_sitesAll rest hrest)

end

theorem Expr.uses_sitesOption {p : Site} (e : Option Expr) (h : ∀ x ∈ e, Expr.Regular x) :
    AllUse (Expr.namingsOption e) (Expr.sitesOption p e) := by
  cases e with
  | none => exact .nil
  | some e => exact e.uses_sites (h e rfl)

theorem Occurrence.uses_sitesOption {p : Site} (use : Option Occurrence) :
    AllUse (Occurrence.namingsOption use) (Occurrence.sitesOption p use) := by
  cases use with
  | none => exact .nil
  | some use => exact .use rfl

mutual

/-- **A name that a statement reads or writes is kept as a use.** -/
theorem Stmt.uses_sites {p : Site} : (s : Stmt) → s.Regular → AllUse s.namings (s.sites p)
  | .expression e, .expression h | .print e, .print h => .cons rfl (e.uses_sites h)
  | .var name initializer, .var _ h => by
    rw [Stmt.sites]
    exact .cons rfl (.cons rfl ((Expr.uses_sitesOption initializer h).behind _))
  | .block body, .block h => by
    rw [Stmt.sites]
    exact .cons rfl (Stmt.uses_sitesAll body h)
  | .ifElse condition thenBranch elseBranch, .ifElse h₁ h₂ _ h₃ _ => by
    rw [Stmt.sites]
    exact .cons rfl (.append (.append (condition.uses_sites h₁) (thenBranch.uses_sites h₂))
      (Stmt.uses_sitesOption elseBranch h₃))
  | .whileLoop condition body, .whileLoop h₁ h₂ _ => by
    rw [Stmt.sites]
    exact .cons rfl (.append (condition.uses_sites h₁) (body.uses_sites h₂))
  | .forLoop initializer condition increment body, .forLoop h₁ _ h₂ h₃ h₄ _ => by
    rw [Stmt.sites]
    exact .cons rfl (.append (.append (.append (Stmt.uses_sitesOption initializer h₁)
      (Expr.uses_sitesOption condition h₂)) (Expr.uses_sitesOption increment h₃))
      (body.uses_sites h₄))
  | .function declaration, .function h => by
    rw [Stmt.sites]
    exact .cons rfl (.cons rfl ((declaration.uses_sites .function h).behind _))
  | .class declaration, .class h => by
    rw [Stmt.sites]
    exact .cons rfl (declaration.uses_sites h)
  | .return _ value, .return h => .cons rfl (.cons rfl (Expr.uses_sitesOption value h))
  | .break _, _ | .continue _, _ => .cons rfl (.cons rfl .nil)

theorem Stmt.uses_sitesAll {p : Site} : (ss : List Stmt) → (∀ s ∈ ss, s.Regular) →
    AllUse (Stmt.namingsAll ss) (Stmt.sitesAll p ss)
  | [], _ => .nil
  | s :: rest, h => by
    obtain ⟨hs, hrest⟩ := List.forall_mem_cons.mp h
    rw [Stmt.sitesAll]
    exact .append (s.uses_sites hs) (Stmt.uses_sitesAll rest hrest)

theorem Stmt.uses_sitesOption {p : Site} : (s : Option Stmt) → (∀ t ∈ s, Stmt.Regular t) →
    AllUse (Stmt.namingsOption s) (Stmt.sitesOption p s)
  | none, _ => .nil
  | some s, h => s.uses_sites (h s rfl)

theorem Function.uses_sites (kind : FunctionKind) {p : Site} :
    (f : Function) → f.Regular → AllUse f.namings (f.sites kind p)
  | ⟨name, params, body, span⟩, .mk _ _ h => by
    rw [Function.sites]
    refine .append (fun x hx use huse => ?_) (Stmt.uses_sitesAll body h)
    obtain ⟨m, hm, rfl⟩ := List.mem_map.mp hx
    obtain ⟨t, -, rfl⟩ := List.mem_map.mp hm
    cases huse

theorem Function.uses_sitesMethods {p : Site} : (fs : List Function) → (∀ f ∈ fs, f.Regular) →
    AllUse (Function.namingsMethods fs) (Function.sitesMethods p fs)
  | [], _ => .nil
  | f :: rest, h => by
    obtain ⟨hf, hrest⟩ := List.forall_mem_cons.mp h
    rw [Function.sitesMethods]
    exact (AllUse.append (f.uses_sites f.methodKind hf)
      (Function.uses_sitesMethods rest hrest)).behind _

theorem Class.uses_sites {p : Site} : (c : Class) → c.Regular → AllUse c.namings (c.sites p)
  | ⟨name, superclass, methods, span⟩, .mk _ _ h => by
    rw [Class.sites]
    exact .cons rfl ((AllUse.append (Occurrence.uses_sitesOption superclass)
      (Function.uses_sitesMethods methods h)).behind _)

end

/-! ## Programs -/

/-- A program is regular, and its occurrences and its words have different numbers, the words in
their order. -/
structure Orderly (program : List Stmt) : Prop where
  regular : ∀ s ∈ program, s.Regular
  ids : (Stmt.idsAll program).Nodup
  words : (Stmt.wordsAll program).Pairwise fun t u => t.id < u.id

theorem orderly_parse (source : String) (firstId : ExprId) :
    Orderly (parse source firstId).tree :=
  ⟨regular_parse source firstId, (numbered_parse source firstId).2.nodup,
    pairwise_words_parse source firstId⟩

section

variable {program : List Stmt} (ho : Orderly program)

include ho

/-- **Every site of a program holds its declarations.** -/
theorem holds_programSites : AllHold program (programSites program) (programSites program) := by
  refine Stmt.holds_sitesAll (Site.placed_enter (p := ⟨[], .none, .none, 0, none⟩) (q := .start)
    (fun _ h => absurd h List.not_mem_nil) rfl fun t ht => ?_) program ho.regular
    (fun t ht => ⟨_, rfl, ht⟩) (List.Subset.refl _)
  exact Stmt.exists_name_sites ht

/-- **What a scope declares is defined by the symbols.** -/
theorem mem_tokens_of_declarations {x : Site × Mark} (hx : x ∈ programSites program) {r : Region}
    (hregion : r ∈ x.1.regions) {t : Token} (ht : t ∈ r.declarations program) :
    t ∈ (resolve program).symbols.tokens := by
  obtain ⟨q, hq, hhead⟩ := (holds_programSites ho x hx).placed r hregion t ht
  obtain ⟨added, htokens, -, hmem⟩ := (reports_of_resolve ho.regular ho.ids ho.words).tokens
  have hadded : t ∈ added := (hmem t).mpr ⟨_, hq, .intro hhead ht⟩
  show t ∈ (Stmt.resolveAll .start program).symbols.tokens
  rw [htokens, List.map_id]
  exact List.mem_append_right _ hadded

/-- A program is without errors if and only if no rule is broken in it. -/
theorem noError_iff : (resolve program).hasError = false ↔
    ∀ x ∈ programSites program, ∀ v, ¬ x.1.Breaks program x.2 v := by
  obtain ⟨added, hcomplaints, -, hmem⟩ :=
    (reports_of_resolve ho.regular ho.ids ho.words).complaints
  have hstart : Context.start.complaints.reverse ++ added.map Violation.complaint =
      added.map Violation.complaint := rfl
  rw [hstart] at hcomplaints
  have hiff : (resolve program).hasError = false ↔ added = [] := by
    rw [← List.map_eq_nil_iff (f := Violation.complaint), ← hcomplaints, List.reverse_eq_nil_iff]
    exact ⟨complaints_of_resolve, noError_of_quiet⟩
  rw [hiff, List.eq_nil_iff_forall_not_mem]
  constructor
  · exact fun h x hx v hv => h v ((hmem v).mpr ⟨x, hx, hv⟩)
  · rintro h v hv
    obtain ⟨x, hx, hbreaks⟩ := (hmem v).mp hv
    exact h x hx v hbreaks

/-- **A scope of a program without errors declares different names.** -/
theorem eq_of_declared (h : (resolve program).hasError = false) {x : Site × Mark}
    (hx : x ∈ programSites program) {r : Region} (hregion : r ∈ x.1.regions) {t u : Token}
    (ht : t ∈ r.declarations program) (hu : u ∈ r.declarations program)
    (hname : t.lexeme = u.lexeme) : t.id = u.id := by
  have hunbroken := (noError_iff ho).mp h
  -- the later one of two declarations of a name would break a rule
  have hle {t u : Token} (ht : t ∈ r.declarations program) (hu : u ∈ r.declarations program)
      (hname : t.lexeme = u.lexeme) : u.id ≤ t.id := by
    obtain ⟨q, hq, hhead⟩ := (holds_programSites ho x hx).placed r hregion u hu
    exact Nat.le_of_not_lt fun hlt => hunbroken _ hq _ (.redeclared hhead hu ht hname hlt)
  exact Nat.le_antisymm (hle hu ht hname.symm) (hle ht hu hname)

end

end Lox
