import Lox.Proofs.Binding.Rules
import Lox.Proofs.Binding.Scoped
import Lox.Proofs.Token.Tiling

/-!
# What the resolver reports

* `Adds`: to a list were added what stands at certain sites, in the order of the text;
* `Context.Reports`: the walk over a part of a program notes the violations and the declarations
  in it, and nothing else;
* `Context.At`, `Site.Aware`: a context tells what its place is like;
* `Expr.reports`, `Stmt.reports`, …: the walk over every part of a program reports its violations;
* **`violations_reported`**: for every text the resolver reports the broken rules in the order of the
  text, and behind them the unused definitions.
-/

namespace Lox

open Context

/-! ## What a walk adds -/

section Adds

variable {α β : Type} {g : α → β} {place : α → Token} {P : Site → Mark → α → Prop}
  {s s₁ s₂ : List (Site × Mark)} {ts us : List Token} {xs ys zs : List β}

/-- What stands at the sites was added, each thing at its place among the tokens `ts`. -/
def Adds (g : α → β) (place : α → Token) (P : Site → Mark → α → Prop) (sites : List (Site × Mark))
    (ts : List Token) (xs ys : List β) : Prop :=
  ∃ added : List α, ys = xs ++ added.map g ∧ (added.map place).Sublist ts ∧
    ∀ a, a ∈ added ↔ ∃ x ∈ sites, P x.1 x.2 a

namespace Adds

theorem append (h₁ : Adds g place P s₁ ts xs ys) (h₂ : Adds g place P s₂ us ys zs) :
    Adds g place P (s₁ ++ s₂) (ts ++ us) xs zs := by
  obtain ⟨as, rfl, hts, has⟩ := h₁
  obtain ⟨bs, rfl, hus, hbs⟩ := h₂
  refine ⟨as ++ bs, by rw [List.map_append, List.append_assoc], ?_, fun a => ?_⟩
  · rw [List.map_append]
    exact hts.append hus
  · rw [List.mem_append, has, hbs]
    simp only [List.mem_append, or_and_right, exists_or]

theorem of_none (h : ∀ x ∈ s, ∀ a, ¬ P x.1 x.2 a) : Adds g place P s [] xs xs := by
  refine ⟨[], by simp, by simp, fun a => iff_of_false List.not_mem_nil ?_⟩
  rintro ⟨x, hx, ha⟩
  exact h x hx a ha

theorem widen (h : Adds g place P s ts xs ys) (hts : ts.Sublist us) : Adds g place P s us xs ys :=
  let ⟨added, hys, hplace, hmem⟩ := h
  ⟨added, hys, hplace.trans hts, hmem⟩

theorem same (h : Adds g place P s ts xs xs) (ys : List β) : Adds g place P s ts ys ys := by
  obtain ⟨added, hxs, hplace, hmem⟩ := h
  have hnil : added = [] := List.map_eq_nil_iff.mp (List.self_eq_append_right.mp hxs)
  exact ⟨added, by simp [hnil], hplace, hmem⟩

theorem sites (h : Adds g place P s₁ ts xs ys) (hs : ∀ x, x ∈ s₂ ↔ x ∈ s₁) :
    Adds g place P s₂ ts xs ys := by
  obtain ⟨added, hys, hplace, hmem⟩ := h
  refine ⟨added, hys, hplace, fun a => (hmem a).trans ?_⟩
  simp only [hs]

theorem single {p : Site} {m : Mark} {a : α} {broken : Bool}
    (ha : ∀ b, P p m b ↔ broken = true ∧ b = a) :
    Adds g place P [(p, m)] [place a] xs (if broken then xs ++ [g a] else xs) := by
  cases broken with
  | true =>
    refine ⟨[a], rfl, .refl _, fun b => ?_⟩
    simp [ha b]
  | false =>
    have hnone : ∀ b, ¬ P p m b := fun b hb => by simpa using (ha b).mp hb
    exact (of_none (List.forall_mem_singleton.mpr hnone)).widen (List.nil_sublist _)

end Adds

end Adds

/-- From `c` to `c'` the violations at the sites were noted and what is declared there was defined,
in the order of the text; the enclosing function and loops are the same. -/
structure Context.Reports (program : List Stmt) (sites : List (Site × Mark)) (ts : List Token)
    (c c' : Context) : Prop where
  complaints : Adds Violation.complaint Violation.token (Site.Breaks program) sites ts
    c.complaints.reverse c'.complaints.reverse
  tokens : Adds id id (Site.Declares program) sites ts c.symbols.tokens c'.symbols.tokens
  function : c'.function = c.function
  loopDepth : c'.loopDepth = c.loopDepth

/-- The mark breaks no rule and declares nothing. -/
structure Quiet (program : List Stmt) (x : Site × Mark) : Prop where
  breaks : ∀ v, ¬ x.1.Breaks program x.2 v
  declares : ∀ t, ¬ x.1.Declares program x.2 t

theorem Quiet.of_ne {program : List Stmt} {p : Site} {m : Mark}
    (hb : ∀ v, ¬ p.Breaks program m v) (hm : ∀ t, m ≠ .name t) : Quiet program (p, m) :=
  ⟨hb, fun t ht => hm t ht.eq_name⟩

namespace Context

theorem tokens_check (c : Context) (broken : Bool) (problem : StaticProblem) (t : Token) :
    (c.check broken problem t).symbols.tokens = c.symbols.tokens := by
  rw [(step_check broken problem t).symbols]

theorem tokens_use (c : Context) (use : Occurrence) :
    (c.use use).symbols.tokens = c.symbols.tokens := by
  unfold Context.use
  split
  · rfl
  · split
    · exact SymbolGraph.tokens_refer _
    · rfl

theorem complaints_check (c : Context) (broken : Bool) (problem : StaticProblem) (t : Token) :
    (c.check broken problem t).complaints.reverse =
      if broken then c.complaints.reverse ++ [Violation.complaint ⟨problem, t⟩]
      else c.complaints.reverse := by
  cases broken <;> simp [check, complain, Violation.complaint]

namespace Reports

variable {program : List Stmt} {p : Site} {m : Mark} {s s₁ s₂ : List (Site × Mark)}
  {ts us : List Token} {c c₁ c₂ c₃ : Context}

theorem append (h₁ : Reports program s₁ ts c c₁) (h₂ : Reports program s₂ us c₁ c₂) :
    Reports program (s₁ ++ s₂) (ts ++ us) c c₂ :=
  ⟨h₁.complaints.append h₂.complaints, h₁.tokens.append h₂.tokens,
    h₂.function.trans h₁.function, h₂.loopDepth.trans h₁.loopDepth⟩

theorem widen (h : Reports program s ts c c₁) (hts : ts.Sublist us) : Reports program s us c c₁ :=
  ⟨h.complaints.widen hts, h.tokens.widen hts, h.function, h.loopDepth⟩

theorem sites (h : Reports program s₁ ts c c₁) (hs : ∀ x, x ∈ s₂ ↔ x ∈ s₁) :
    Reports program s₂ ts c c₁ :=
  ⟨h.complaints.sites hs, h.tokens.sites hs, h.function, h.loopDepth⟩

theorem of_quiet (h : ∀ x ∈ s, Quiet program x) : Reports program s [] c c :=
  ⟨.of_none fun x hx => (h x hx).breaks, .of_none fun x hx => (h x hx).declares, rfl, rfl⟩

theorem refl : Reports program [] [] c c := of_quiet fun _ h => absurd h List.not_mem_nil

theorem cons (hm : Quiet program (p, m)) (h : Reports program s ts c c₁) :
    Reports program ((p, m) :: s) ts c c₁ :=
  append (of_quiet (List.forall_mem_singleton.mpr hm)) h

/-- Steps in front of a walk and behind it that note nothing and define nothing. -/
theorem between (h : Reports program s ts c₁ c₂) (hc : c₁.complaints = c.complaints)
    (ht : c₁.symbols.tokens = c.symbols.tokens) (hc' : c₃.complaints = c₂.complaints)
    (ht' : c₃.symbols.tokens = c₂.symbols.tokens) (hf : c₃.function = c.function)
    (hl : c₃.loopDepth = c.loopDepth) : Reports program s ts c c₃ := by
  refine ⟨?_, ?_, hf, hl⟩
  · rw [hc', ← hc]
    exact h.complaints
  · rw [ht', ← ht]
    exact h.tokens

theorem check {broken : Bool} {problem : StaticProblem} {t : Token}
    (hv : ∀ v, p.Breaks program m v ↔ broken = true ∧ v = ⟨problem, t⟩)
    (hm : ∀ u, m ≠ .name u) :
    Reports program [(p, m)] [t] c (c.check broken problem t) := by
  refine ⟨?_, ?_, (alike_check _ _ _).function, (alike_check _ _ _).loopDepth⟩
  · rw [complaints_check]
    exact .single hv
  · rw [tokens_check]
    have hnone : ∀ u, ¬ p.Declares program m u := fun u hu => hm u hu.eq_name
    exact (Adds.of_none (List.forall_mem_singleton.mpr hnone)).widen (List.nil_sublist _)

/-- Of two rules at one token at most one is broken. -/
theorem checkEither {first second : Bool} {problem problem' : StaticProblem} {t : Token}
    (hv : ∀ v, p.Breaks program m v ↔
      first = true ∧ v = ⟨problem, t⟩ ∨ second = true ∧ v = ⟨problem', t⟩)
    (hm : ∀ u, m ≠ .name u) (hne : first = true → second = false) :
    Reports program [(p, m)] [t] c ((c.check first problem t).check second problem' t) := by
  cases first with
  | false => exact .check (fun v => by simp [hv v]) hm
  | true =>
    obtain rfl := hne rfl
    have hfirst : Reports program [(p, m)] [t] c (c.check true problem t) :=
      .check (fun v => by simp [hv v]) hm
    exact hfirst

theorem loop (h : Reports program s ts c.enterLoop c₁) : Reports program s ts c c₁.leaveLoop := by
  refine h.between rfl rfl rfl rfl h.function ?_
  rw [leaveLoop, h.loopDepth]
  rfl

theorem use (h : Reports program s ts c c₁) (o : Occurrence) :
    Reports program s ts c (c₁.use o) :=
  h.between rfl rfl (use_complaints o) (tokens_use c₁ o) ((alike_use o).function.trans h.function)
    ((alike_use o).loopDepth.trans h.loopDepth)

theorem tokens_eq (h : Reports program s ts c c₁) {r : Region}
    (hs : ∀ x ∈ s, x.1.regions.head? = some r) (hfree : ∀ t ∈ ts, t ∉ r.declarations program) :
    c₁.symbols.tokens = c.symbols.tokens := by
  obtain ⟨named, htokens, hplace, hmem⟩ := h.tokens
  cases named with
  | nil => rw [htokens, List.map_nil, List.append_nil]
  | cons t named =>
    obtain ⟨x, hx, hd⟩ := (hmem t).mp List.mem_cons_self
    exact absurd (hd.mem (hs x hx)) (hfree t (hplace.subset List.mem_cons_self))

end Reports

end Context

/-! ## What a context tells of its place -/

/-- What a context tells of its place: the innermost scope, the class and the open initializer. -/
structure Context.At (p : Site) (l : Layer) (c : Context) : Prop where
  region : p.regions.head? = some l.region
  innermost : ∀ name, c.innermost? name = l.state name
  classKind : c.classKind = Region.classKind p.regions
  opening : p.opening = l.opening.map Token.lexeme

/-- What a context tells of the function and the loops around its place, which is described as its
scopes have it. -/
structure Site.Aware (p : Site) (l : Layer) (c : Context) : Prop where
  function : c.function = Region.functionKind p.regions
  classKind : p.classKind = Region.classKind p.regions
  loopDepth : c.loopDepth = p.loopDepth
  opening : p.opening = l.opening.map Token.lexeme

/-- A scope in which statements stand, in no initializer. -/
structure Layer.Body (l : Layer) : Prop where
  opening : l.opening = none
  word : l.region.word? = none

theorem Layer.Body.pass {l : Layer} (hl : l.Body) (cs : List Token) : (l.pass cs).Body :=
  ⟨hl.opening, hl.word⟩

theorem Layer.Body.ne_this {l : Layer} (hl : l.Body) (k : Class) : l.region ≠ .this k := by
  intro hk
  have hword := hl.word
  rw [hk] at hword
  cases hword

theorem Layer.state_eq_uninitialized {l : Layer} {name : String} :
    l.state name = some .uninitialized ↔ l.opening.map Token.lexeme = some name := by
  constructor
  · intro h
    obtain ⟨t, ht, hn⟩ := Layer.opening_of_state h
    rw [ht, Option.map_some, hn]
  · intro h
    obtain ⟨t, ht, hn⟩ := Option.map_eq_some_iff.mp h
    rw [Layer.state, ht]
    simp [hn]

section

variable {program : List Stmt} {p q : Site} {b e : TokenId} {cs ds : List Token} {l : Layer}
  {ls : List Layer} {xs : List ExprId} {us ts : List Token} {c c₁ : Context}
  {s : List (Site × Mark)}

theorem Context.At.alike (h : c.At p l) (ha : Alike c c₁) : c₁.At p l where
  region := h.region
  innermost name := by
    rw [innermost?, ha.scopes]
    exact h.innermost name
  classKind := ha.classKind.trans h.classKind
  opening := h.opening

theorem Ready.region (h : Ready program p b e cs l ls xs us c) :
    p.regions.head? = some l.region := by
  rw [← h.regions]
  rfl

theorem Ready.innermost? (h : Ready program p b e cs l ls xs us c) (name : String) :
    c.innermost? name = l.state name := by
  obtain ⟨scope, outer, hs, hscope, -⟩ := List.map_eq_cons_iff.mp h.stands.scopes
  rw [Context.innermost?, hs, ← hscope]
  rfl

theorem Ready.at (h : Ready program p b e cs l ls xs us c) (ha : p.Aware l c) : c.At p l :=
  ⟨h.region, h.innermost?, h.classKind.trans ha.classKind, ha.opening⟩

/-- The words of a part that declares nothing are declared nowhere in the innermost scope. -/
theorem Ready.not_declared (h : Ready program p b e [] l ls xs us c) :
    ∀ t ∈ us, t ∉ l.region.declarations program := by
  intro t ht hmem
  have hb := h.within.first_le t ht
  have hpassed := (h.innermost.mem_declarations hb (h.within.lt_last t ht) t).mp
    ⟨hmem, Nat.le_refl _⟩
  exact Nat.not_le_of_lt (h.innermost.before t hpassed) hb

theorem Site.Aware.behind (h : p.Aware l c) (hr : Reports program s ts c c₁) (hq : p.Beside q)
    (hl : q.loopDepth = p.loopDepth) (cs : List Token) : q.Aware (l.pass cs) c₁ where
  function := by rw [hr.function, hq.regions, h.function]
  classKind := by rw [hq.classKind, hq.regions, h.classKind]
  loopDepth := by rw [hr.loopDepth, hl, h.loopDepth]
  opening := by rw [hq.opening, h.opening]; rfl

end

/-! ## Expressions -/

theorem Site.quiet_of_name {program : List Stmt} {p : Site} {r : Region} {t : Token}
    (hr : p.regions.head? = some r) (ht : t ∉ r.declarations program) :
    Quiet program (p, .name t) where
  breaks _ hv := ht (hv.mem hr)
  declares u hd := by
    have hmem := hd.mem hr
    cases hd
    exact ht hmem

theorem Site.mark_append (p : Site) (ms ms' : List Mark) :
    p.mark (ms ++ ms') = p.mark ms ++ p.mark ms' := List.map_append

mutual

theorem Expr.reports {program : List Stmt} {p : Site} {l : Layer} {c : Context} :
    (x : Expr) → x.Regular → c.At p l → (∀ t ∈ x.words, t ∉ l.region.declarations program) →
    Reports program (x.sites p) x.words c (x.resolve c)
  | .literal _, _, _, _ => .refl
  | .grouping inner, .grouping hr, h, hfree => inner.reports hr h hfree
  | .unary _ _ operand, .unary hr, h, hfree => operand.reports hr h hfree
  | .binary left _ _ right, .binary hl hr, h, hfree => by
    obtain ⟨hfree₁, hfree₂⟩ := List.forall_mem_append.mp hfree
    rw [Expr.sites, Expr.marks, Site.mark_append]
    exact (left.reports hl h hfree₁).append (right.reports hr (h.alike (left.alike_resolve c)) hfree₂)
  | .logical left _ _ right, .logical hl hr, h, hfree => by
    obtain ⟨hfree₁, hfree₂⟩ := List.forall_mem_append.mp hfree
    rw [Expr.sites, Expr.marks, Site.mark_append]
    exact (left.reports hl h hfree₁).append (right.reports hr (h.alike (left.alike_resolve c)) hfree₂)
  | .variable use, .variable hn, h, _ => by
    have hcheck : Reports program [(p, .read use)] [use.name] c
        (c.check (c.innermost? use.name.lexeme == some .uninitialized) .readInInitializer use.name) := by
      refine .check (fun v => ?_) fun _ => nofun
      rw [Site.breaks_read_name hn.isName, beq_iff_eq, h.innermost, Layer.state_eq_uninitialized,
        ← h.opening]
    exact hcheck.use use
  | .assign target value, .assign ht hv, h, hfree => by
    have hfree : ∀ t ∈ target.name :: value.words, t ∉ l.region.declarations program := hfree
    obtain ⟨htarget, hvalue⟩ := List.forall_mem_cons.mp hfree
    have hname := Site.quiet_of_name h.region htarget
    have hrest := ((value.reports hv h hvalue).widen (List.sublist_cons_self target.name _)).use target
    exact .cons (.of_ne (fun _ => nofun) fun _ => nofun) (.cons hname hrest)
  | .call callee arguments _, .call hc ha, h, hfree => by
    obtain ⟨hfree₁, hfree₂⟩ := List.forall_mem_append.mp hfree
    rw [Expr.sites, Expr.marks, Site.mark_append]
    exact (callee.reports hc h hfree₁).append
      (Expr.reportsAll arguments ha (h.alike (callee.alike_resolve c)) hfree₂)
  | .get object _, .get hr _, h, hfree => object.reports hr h hfree
  | .set object _ value, .set ho _ hv, h, hfree => by
    obtain ⟨hfree₁, hfree₂⟩ := List.forall_mem_append.mp hfree
    rw [Expr.sites, Expr.marks, Site.mark_append]
    exact (object.reports ho h hfree₁).append
      (value.reports hv (h.alike (object.alike_resolve c)) hfree₂)
  | .this keyword, .this hk, h, _ => by
    have hbreaks (v : Violation) : p.Breaks program (.read keyword) v ↔ _ :=
      Site.breaks_read_word hk.isWord
    rw [Expr.resolve]
    cases hc : c.classKind with
    | none =>
      have hclass : p.class? = none := Region.classKind_eq_none.mp (h.classKind.symm.trans hc)
      have hcheck : Reports program [(p, .read keyword)] [keyword.name] c
          (c.check true .thisOutsideClass keyword.name) :=
        .check (fun v => by simp [hbreaks v, hclass]) fun _ => nofun
      exact hcheck
    | plain | subclass =>
      have hclass : p.class? ≠ none := fun hn => by
        rw [h.classKind, Region.classKind_eq_none.mpr hn] at hc
        cases hc
      have hquiet : Reports program [(p, .read keyword)] [] c c :=
        .cons (.of_ne (fun v hv => hclass ((hbreaks v).mp hv).1.2) (fun _ => nofun)) .refl
      exact (hquiet.widen (List.nil_sublist _)).use keyword
  | .super keyword _, .super hk _, h, _ => by
    have hread : Quiet program (p, .read keyword) :=
      .of_ne (fun v hv => by simpa using (Site.breaks_read_word hk.isWord).mp hv) fun _ => nofun
    refine .cons hread ?_
    rw [Expr.resolve]
    cases hc : c.classKind with
    | none =>
      have hclass : p.class? = none := Region.classKind_eq_none.mp (h.classKind.symm.trans hc)
      have hcheck : Reports program [(p, .super keyword)] [keyword.name] c
          (c.check true .superOutsideClass keyword.name) :=
        .check (fun v => by simp [Site.breaks_super, hclass]) fun _ => nofun
      exact hcheck
    | plain =>
      obtain ⟨k, hclass, hsuper⟩ := Region.classKind_eq_plain.mp (h.classKind.symm.trans hc)
      have hclass : p.class? = some k := hclass
      have hcheck : Reports program [(p, .super keyword)] [keyword.name] c
          (c.check true .superWithoutSuperclass keyword.name) :=
        .check (fun v => by simp [Site.breaks_super, hclass, hsuper]) fun _ => nofun
      exact hcheck
    | subclass =>
      have hquiet : Quiet program (p, .super keyword) := by
        refine .of_ne (fun v hv => ?_) fun _ => nofun
        rw [h.classKind] at hc
        rcases Site.breaks_super.mp hv with ⟨hn, -⟩ | ⟨hplain, -⟩
        · rw [Region.classKind_eq_none.mpr hn] at hc
          cases hc
        · rw [Region.classKind_eq_plain.mpr hplain] at hc
          cases hc
      exact ((Reports.cons hquiet .refl).widen (List.nil_sublist _)).use keyword

theorem Expr.reportsAll {program : List Stmt} {p : Site} {l : Layer} {c : Context} :
    (es : List Expr) → (∀ x ∈ es, x.Regular) → c.At p l →
    (∀ t ∈ Expr.wordsAll es, t ∉ l.region.declarations program) →
    Reports program (p.mark (Expr.marksAll es)) (Expr.wordsAll es) c (Expr.resolveAll c es)
  | [], _, _, _ => .refl
  | x :: rest, hr, h, hfree => by
    obtain ⟨hx, hrest⟩ := List.forall_mem_cons.mp hr
    obtain ⟨hfree₁, hfree₂⟩ := List.forall_mem_append.mp hfree
    rw [Expr.marksAll, Site.mark_append]
    exact (x.reports hx h hfree₁).append
      (Expr.reportsAll rest hrest (h.alike (x.alike_resolve c)) hfree₂)

end

theorem Expr.reportsOption {program : List Stmt} {p : Site} {l : Layer} {c : Context}
    (x : Option Expr) (hr : ∀ y ∈ x, Expr.Regular y) (h : c.At p l)
    (hfree : ∀ t ∈ Expr.wordsOption x, t ∉ l.region.declarations program) :
    Reports program (Expr.sitesOption p x) (Expr.wordsOption x) c (Expr.resolveOption c x) := by
  cases x with
  | none => exact .refl
  | some x => exact x.reports (hr x rfl) h hfree

/-! ## Declarations -/

section

variable {program : List Stmt} {p q : Site} {b e : TokenId} {cs : List Token} {l : Layer}
  {ls : List Layer} {xs : List ExprId} {us : List Token} {c c₁ : Context} {s : List (Site × Mark)}
  {t : Token}

theorem Context.complaints_declare (c : Context) (t : Token) :
    (c.declare t).complaints.reverse =
      if (c.innermost? t.lexeme).isSome then
        c.complaints.reverse ++ [Violation.complaint ⟨.alreadyDeclared, t⟩]
      else c.complaints.reverse := by
  rw [declare, bind_complaints, complaints_check]

/-- A name is taken in the innermost scope if it is declared there in front of its declaration. -/
theorem Ready.isSome_innermost? (h : Ready program p b e [t] l ls xs (t :: us) c)
    (hl : l.Body) : (c.innermost? t.lexeme).isSome = true ↔
      ∃ u ∈ l.region.declarations program, u.lexeme = t.lexeme ∧ u.id < t.id := by
  obtain ⟨after, hdecl, hafter⟩ := h.innermost.declarations
  have hb := h.within.first_le t List.mem_cons_self
  have he := h.within.lt_last t List.mem_cons_self
  rw [h.innermost?, Option.isSome_iff_ne_none, Layer.state_ne_none, hl.word, hdecl]
  constructor
  · rintro (⟨u, hu, hn⟩ | ⟨k, hk, -⟩)
    · exact ⟨u, by simp [hu], hn, Nat.lt_of_lt_of_le (h.innermost.before u hu) hb⟩
    · cases hk
  · rintro ⟨u, hu, hn, hlt⟩
    simp only [List.mem_append, List.mem_reverse, List.mem_singleton] at hu
    rcases hu with (hu | rfl) | hu
    · exact .inl ⟨u, hu, hn⟩
    · exact absurd hlt (Nat.lt_irrefl _)
    · exact absurd (Nat.lt_trans hlt he) (Nat.not_lt_of_le (hafter u hu))

/-- **A declaration is reported where its scope already holds one of the name**, and it is defined
behind its initializer. -/
theorem Ready.declaring (h : Ready program p b e [t] l ls xs (t :: us) c) (hl : l.Body)
    (hq : q.regions = p.regions) (hr : Reports program s us (c.declare t) c₁)
    (hscopes : c₁.scopes = (c.declare t).scopes) (hnone : c₁.symbols.tokens = c.symbols.tokens)
    (kind : SymbolKind) :
    Reports program ((q, .name t) :: s) (t :: us) c (c₁.define t kind) := by
  have hregion : q.regions.head? = some l.region := hq ▸ h.region
  have hmem : t ∈ l.region.declarations program := by
    obtain ⟨after, hdecl, -⟩ := h.innermost.declarations
    simp [hdecl]
  have hbreaks (v : Violation) : q.Breaks program (.name t) v ↔
      (c.innermost? t.lexeme).isSome = true ∧ v = ⟨.alreadyDeclared, t⟩ := by
    rw [h.isSome_innermost? hl]
    constructor
    · rintro ⟨hr', -, hu, hn, hlt⟩
      rw [hregion] at hr'
      cases hr'
      exact ⟨⟨_, hu, hn, hlt⟩, rfl⟩
    · rintro ⟨⟨u, hu, hn, hlt⟩, rfl⟩
      exact .redeclared hregion hmem hu hn hlt
  have hdeclares (u : Token) : q.Declares program (.name t) u ↔ true = true ∧ u = t := by
    constructor
    · rintro ⟨-, -⟩
      exact ⟨rfl, rfl⟩
    · rintro ⟨-, rfl⟩
      exact .intro hregion hmem
  have hname : Adds Violation.complaint Violation.token (Site.Breaks program) [(q, .name t)] [t]
      c.complaints.reverse (c.declare t).complaints.reverse := by
    rw [complaints_declare]
    exact .single hbreaks
  have htokens := hr.tokens
  rw [hnone, declare_symbols] at htokens
  have hopen : c₁.scopes ≠ [] := hscopes ▸ (h.stands.declare hl.opening t).ne_nil
  rw [define_of_ne_nil hopen]
  refine ⟨?_, ?_, ?_, ?_⟩
  · show Adds _ _ _ _ _ _ (c₁.bind t.lexeme (.declared t.id)).complaints.reverse
    rw [bind_complaints]
    exact hname.append hr.complaints
  · show Adds _ _ _ _ _ _ (c₁.symbols.define t kind).tokens
    rw [SymbolGraph.tokens_define, hnone]
    have hadd : Adds id id (Site.Declares program) [(q, .name t)] [t] c.symbols.tokens
        (c.symbols.tokens ++ [t]) := .single (a := t) hdeclares
    exact hadd.append (htokens.same _)
  · show (c₁.bind t.lexeme (.declared t.id)).function = c.function
    rw [bind_function, hr.function, declare, bind_function, (alike_check _ _ _).function]
  · show (c₁.bind t.lexeme (.declared t.id)).loopDepth = c.loopDepth
    rw [bind_loopDepth, hr.loopDepth, declare, bind_loopDepth, (alike_check _ _ _).loopDepth]

/-- **A name without an initializer.** -/
theorem Ready.naming (h : Ready program p b e [t] l ls xs [t] c) (hl : l.Body)
    (hq : q.regions = p.regions) (kind : SymbolKind) :
    Reports program [(q, .name t)] [t] c ((c.declare t).define t kind) := by
  have hdeclare : Reports program [] [] (c.declare t) (c.declare t) := .refl
  exact h.declaring hl hq hdeclare rfl (by rw [declare_symbols]) kind

theorem Ready.reportsParameters (params : List Token)
    (h : Ready program p b e params l ls [] params c) (ha : p.Aware l c) (hl : l.Body) :
    Reports program (p.mark (params.map .name)) params c (params.foldl parameter c) := by
  induction params generalizing c l b with
  | nil => exact .refl
  | cons t rest ih =>
    have h : Ready program p b e ([t] ++ rest) l ls ([] ++ []) ([t] ++ rest) c := h
    obtain ⟨m, hfirst, hrest⟩ := h.pair (.refl _) (.refl _) (.inr hl.opening) (.refl p)
      fun _ h => h.introduce (s := []) hl.opening .parameter (by simp)
    have hname := hfirst.naming hl rfl .parameter
    exact hname.append (ih hrest (ha.behind hname (.refl p) rfl [t]) (hl.pass [t]))

/-! ## Classes and functions -/

theorem Site.regions_enterClass (p : Site) (k : Class) : (p.enterClass k).regions =
    .this k :: match k.superclass with
      | none => p.regions
      | some _ => .super k :: p.regions := by
  have hdeclare := Site.regions_declare p k.name.lexeme
  rw [Site.enterClass, Site.enterSuper]
  cases k.superclass with
  | none => exact congrArg (Region.this k :: ·) hdeclare
  | some use => exact congrArg (Region.this k :: Region.super k :: ·) hdeclare

theorem Site.Aware.enterLoop (ha : p.Aware l c) : p.enterLoop.Aware l c.enterLoop :=
  ⟨ha.function, ha.classKind, congrArg (· + 1) ha.loopDepth, ha.opening⟩

theorem Site.Aware.enter (ha : p.Aware l c) (ho : l.opening = none) {r : Region}
    (hf : Region.functionKind (r :: p.regions) = Region.functionKind p.regions)
    (hc : r.class? = none) : (p.enter r []).Aware ⟨r, [], none⟩ c.openScope where
  function := ha.function.trans hf.symm
  classKind := by
    show p.classKind = Region.classKind (r :: p.regions)
    rw [ha.classKind, Region.classKind, Region.classKind, List.findSome?_cons, hc]
  loopDepth := ha.loopDepth
  opening := by
    show p.opening = none
    rw [ha.opening, ho]
    rfl

theorem Site.Aware.inClass (ha : p.Aware l c) (ho : l.opening = none) (k : Class)
    (hf : c₁.function = c.function) (hd : c₁.loopDepth = c.loopDepth) :
    (p.enterClass k).Aware ⟨.this k, [], none⟩ c₁ := by
  have hdeclare := Site.behind_declare (p := p) k.name.lexeme
  have hopening : p.opening = none := by rw [ha.opening, ho]; rfl
  refine ⟨?_, ?_, ?_, ?_⟩
  · rw [Site.regions_enterClass, hf, ha.function]
    cases k.superclass <;> rfl
  · rw [Site.regions_enterClass]
    show (p.enterClass k).classKind = if k.superclass.isSome then .subclass else .plain
    rw [Site.enterClass, Site.enterSuper]
    cases k.superclass <;> rfl
  · rw [hd, ha.loopDepth, Site.enterClass, Site.enterSuper]
    cases k.superclass <;> exact hdeclare.loopDepth.symm
  · refine Eq.trans ?_ hopening
    rw [Site.enterClass, Site.enterSuper]
    cases k.superclass <;> exact hdeclare.opening

theorem Site.Aware.inFunction (ha : p.Aware l c) (ho : l.opening = none) {kind : FunctionKind}
    {f : Function} (hkind : Region.functionKind (.function f :: p.regions) = kind) :
    (p.enterFunction kind f).Aware ⟨.function f, [], none⟩ (c.enterFunction kind) where
  function := hkind.symm
  classKind := ha.classKind
  loopDepth := rfl
  opening := by
    show p.opening = none
    rw [ha.opening, ho]
    rfl

theorem Ready.reportsSuperclass {use : Occurrence}
    (h : Ready program q b e [] l ls xs us c) (hn : use.name.IsName) (ho : l.opening = none)
    (hp : p.opening = none) :
    Reports program [(p, .read use)] [] c ((Expr.variable use).resolve c) := by
  have hread : Quiet program (p, .read use) := by
    refine .of_ne (fun v hv => ?_) fun _ => nofun
    have := ((Site.breaks_read_name hn).mp hv).1
    rw [hp] at this
    cases this
  have hclosed : (c.innermost? use.name.lexeme == some .uninitialized) = false := by
    rw [beq_eq_false_iff_ne, h.innermost?, Ne, Layer.state_eq_uninitialized, ho]
    simp
  rw [Expr.resolve, hclosed]
  exact (Reports.of_quiet (List.forall_mem_singleton.mpr hread)).use use

/-! ## Statements -/

theorem reports_return {keyword : Token} {value : Option Expr}
    (h : c.function = Region.functionKind p.regions) :
    Reports program [(p, .statement (.return keyword value))] [keyword] c
      ((c.check (c.function == .none) .returnOutsideFunction keyword).check
        (value.isSome && c.function == .initializer) .returnFromInitializer keyword) := by
  have hnone : (∀ f, Region.function f ∉ p.regions) ↔ c.function = .none := by
    rw [h, Region.functionKind_eq_none]
  have hinit : p.InInitializer ↔ c.function = .initializer := by
    rw [h, Region.functionKind_eq_initializer]
    rfl
  refine .checkEither (fun v => ?_) (fun _ => nofun) fun hfirst => ?_
  · rw [Site.breaks_return, hnone, hinit, beq_iff_eq, Bool.and_eq_true, beq_iff_eq]
  · rw [beq_iff_eq.mp hfirst]
    exact Bool.and_false _

end

mutual

theorem Stmt.reports {program : List Stmt} {p : Site} {b e : TokenId} {l : Layer} {ls : List Layer}
    {c : Context} : (s : Stmt) → s.Regular → l.Body → p.Aware l c →
    Ready program p b e s.declared?.toList l ls s.ids s.words c →
    Reports program (s.sites p) s.places c (s.resolve c)
  | .expression x, .expression hr, _, ha, h => by
    have hx := x.reports hr (h.at ha) (h.not_declared)
    exact hx.cons (.of_ne (fun _ => nofun) fun _ => nofun)
  | .print x, .print hr, _, ha, h => by
    have hx := x.reports hr (h.at ha) (h.not_declared)
    exact hx.cons (.of_ne (fun _ => nofun) fun _ => nofun)
  | .var name initializer, .var _ hi, hl, ha, h => by
    obtain ⟨m, hinner⟩ := h.initializer hl.opening
    have hat : (c.declare name).At (p.initializing name.lexeme) { l with opening := some name } :=
      ⟨hinner.region, hinner.innermost?, hinner.classKind.trans ha.classKind, rfl⟩
    have hinit := Expr.reportsOption initializer hi hat hinner.not_declared
    have hregion : ∀ x ∈ Expr.sitesOption (p.initializing name.lexeme) initializer,
        x.1.regions.head? = some l.region := by
      cases initializer with
      | none => exact fun x hx => absurd hx List.not_mem_nil
      | some e =>
        intro x hx
        obtain ⟨_, -, rfl⟩ := List.mem_map.mp hx
        exact hinner.region
    have hnone := hinit.tokens_eq hregion hinner.not_declared
    rw [declare_symbols] at hnone
    have hscopes := (Expr.alike_resolveOption (c.declare name) initializer).scopes
    exact (h.declaring hl rfl hinit hscopes hnone .variable).cons
      (.of_ne (fun _ => nofun) fun _ => nofun)
  | .block body, .block hr, hl, ha, h => by
    have hinner : Ready program (p.enter (.block body) []) b e (body.filterMap Stmt.declared?)
        ⟨.block body, [], none⟩ (l :: ls) (Stmt.idsAll body) (Stmt.wordsAll body) c.openScope :=
      h.opened hl.opening rfl rfl rfl rfl rfl
    have hbody := Stmt.reportsAll body hr ⟨rfl, rfl⟩ (ha.enter hl.opening rfl rfl) hinner
    have hclosed : Reports program _ _ c (Stmt.resolve c (.block body)) :=
      hbody.between rfl rfl rfl rfl hbody.function hbody.loopDepth
    exact hclosed.cons (.of_ne (fun _ => nofun) fun _ => nofun)
  | .ifElse condition thenBranch elseBranch, .ifElse hc ht hd he hd', hl, ha, h => by
    have h : Ready program p b e [] l ls
        (condition.ids ++ thenBranch.ids ++ Stmt.idsOption elseBranch)
        (condition.words ++ thenBranch.words ++ Stmt.wordsOption elseBranch) c := h
    obtain ⟨m, hfront, helse⟩ := h.pairExpression (List.nil_sublist _) (.inl rfl) (.refl p)
      fun _ h => h.both (fun _ h => condition.walked hc h) fun _ h =>
        h.branch hd (thenBranch.walked ht hl.opening)
    obtain ⟨n, hcond, hthen⟩ := hfront.pairExpression (List.nil_sublist _) (.inl rfl) (.refl p)
      fun _ h => condition.walked hc h
    have rcond := condition.reports hc (hcond.at ha) hcond.not_declared
    have hathen := ha.behind rcond (.refl p) rfl []
    have rthen := thenBranch.reports ht hl hathen (by rw [Stmt.declared?_eq_none hd]; exact hthen)
    have haelse := ha.behind (rcond.append rthen) (.refl p) rfl []
    have relse := Stmt.reportsOption elseBranch he hl haelse
      (by rw [Stmt.bind_declared? hd']; exact helse)
    exact ((rcond.append rthen).append relse).cons (.of_ne (fun _ => nofun) fun _ => nofun)
  | .whileLoop condition body, .whileLoop hc hb hd, hl, ha, h => by
    have h : Ready program p b e [] l ls (condition.ids ++ body.ids) (condition.words ++ body.words)
      c := h
    obtain ⟨m, hcond, hbody⟩ := h.pairExpression (List.nil_sublist _) (.inl rfl)
      (Site.Beside.refl p).enterLoop fun _ h => condition.walked hc h
    have rcond := condition.reports hc (hcond.at ha) hcond.not_declared
    have rbody := body.reports hb hl ((ha.behind rcond (.refl p) rfl []).enterLoop)
      (by rw [Stmt.declared?_eq_none hd]; exact hbody.step step_enterLoop)
    exact (rcond.append rbody.loop).cons (.of_ne (fun _ => nofun) fun _ => nofun)
  | .forLoop initializer condition increment body, .forLoop hi hk hc hs hb hd, hl, ha, h => by
    have hinner : Ready program (p.enter (.clauses initializer condition increment body) []) b e
        (initializer.bind Stmt.declared?).toList ⟨.clauses initializer condition increment body, [], none⟩
        (l :: ls) (Stmt.idsOption initializer ++ Expr.idsOption condition ++
          Expr.idsOption increment ++ body.ids)
        (Stmt.wordsOption initializer ++ Expr.wordsOption condition ++ Expr.wordsOption increment ++
          body.words) c.openScope := h.opened hl.opening rfl rfl rfl rfl rfl
    have hbehind := Site.beside_afterOption
      (p := p.enter (.clauses initializer condition increment body) []) initializer
    have hcs := Stmt.sublist_declaredOption initializer
    have hcs₂ := hcs.trans (List.sublist_append_left _ (Expr.wordsOption condition))
    have hcs₃ := hcs₂.trans (List.sublist_append_left _ (Expr.wordsOption increment))
    have hlayer : Layer.Body ⟨.clauses initializer condition increment body, [], none⟩ := ⟨rfl, rfl⟩
    obtain ⟨m₃, hfront₃, hbody⟩ := hinner.pairExpression hcs₃ (.inr rfl) hbehind.enterLoop fun _ h =>
      h.appendExpression hcs₂ (.inr rfl) hbehind
        (fun _ h => h.appendExpression hcs (.inr rfl) hbehind
          (fun _ h => Stmt.walkedOption initializer hi rfl h)
          fun _ h => Expr.walkedOption condition hc h)
        fun _ h => Expr.walkedOption increment hs h
    obtain ⟨m₂, hfront₂, hstep⟩ := hfront₃.pairExpression hcs₂ (.inr rfl) hbehind fun _ h =>
      h.appendExpression hcs (.inr rfl) hbehind
        (fun _ h => Stmt.walkedOption initializer hi rfl h)
        fun _ h => Expr.walkedOption condition hc h
    obtain ⟨m₁, hinit, hcond⟩ := hfront₂.pairExpression hcs (.inr rfl) hbehind
      fun _ h => Stmt.walkedOption initializer hi rfl h
    have hdepth := (Site.behind_afterOption
      (p := p.enter (.clauses initializer condition increment body) []) initializer).loopDepth
    have hainner := ha.enter hl.opening (r := .clauses initializer condition increment body) rfl rfl
    have rinit := Stmt.reportsOption initializer hi hlayer hainner hinit
    have hacond := hainner.behind rinit hbehind hdepth (initializer.bind Stmt.declared?).toList
    have rcond := Expr.reportsOption condition hc (hcond.at hacond) hcond.not_declared
    have hastep := hacond.behind rcond (.refl _) rfl []
    have rstep := Expr.reportsOption increment hs (hstep.at hastep) hstep.not_declared
    have habody := (hastep.behind rstep (.refl _) rfl []).enterLoop
    have rbody := body.reports hb (hlayer.pass _) habody
      (by rw [Stmt.declared?_eq_none hd]; exact hbody.step step_enterLoop)
    have rloop := ((rinit.append rcond).append rstep).append rbody.loop
    have hclosed : Reports program _ _ c
        (Stmt.resolve c (.forLoop initializer condition increment body)) :=
      rloop.between rfl rfl rfl rfl rloop.function rloop.loopDepth
    exact hclosed.cons (.of_ne (fun _ => nofun) fun _ => nofun)
  | .function declaration, .function hr, hl, ha, h => by
    have h : Ready program p b e ([declaration.name] ++ []) l ls ([] ++ declaration.ids)
      ([declaration.name] ++ declaration.words) c := h
    have hbeside := Site.beside_declare (p := p) declaration.name.lexeme
    obtain ⟨m, hname, hbody⟩ := h.pair (.refl _) (List.nil_sublist _) (.inr hl.opening) hbeside
      fun _ h => h.introduce (s := []) hl.opening .function (by simp)
    have rname := hname.naming hl rfl .function
    have habody := ha.behind rname hbeside (Site.behind_declare _).loopDepth [declaration.name]
    have hkind : Region.functionKind (.function declaration ::
        (p.declare declaration.name.lexeme).regions) = .function := by
      refine Region.functionKind_function fun k hk => hl.ne_this k ?_
      rw [hbeside.regions, hname.region] at hk
      exact Option.some.inj hk
    have rbody := declaration.reports hr hkind (hl.pass _).opening habody hbody
    exact (rname.append rbody).cons (.of_ne (fun _ => nofun) fun _ => nofun)
  | .class declaration, .class hr, hl, ha, h => declaration.reports hr hl ha h
  | .return keyword value, .return hr, _, ha, h => by
    have rkeyword : Reports program [(p, .statement (.return keyword value))] [keyword] c _ :=
      reports_return ha.function
    have hvalue := (h.step (step_check (c.function == .none) .returnOutsideFunction keyword)).step
      (step_check (value.isSome && c.function == .initializer) .returnFromInitializer keyword)
    have havalue := ha.behind rkeyword (.refl p) rfl []
    have rvalue := Expr.reportsOption value hr (hvalue.at havalue) hvalue.not_declared
    have hmark : Quiet program (p, .return) := .of_ne (fun _ => nofun) fun _ => nofun
    have hboth := rkeyword.append (rvalue.cons hmark)
    rw [Stmt.resolve, (alike_check _ _ _).function]
    exact hboth
  | .break keyword, .break, _, ha, _ => by
    have hmark : Quiet program (p, .break) := .of_ne (fun _ => nofun) fun _ => nofun
    have hcheck : Reports program [(p, .statement (.break keyword))] [keyword] c
        (c.check (c.loopDepth == 0) .breakOutsideLoop keyword) := by
      refine .check (fun v => ?_) fun _ => nofun
      rw [Site.breaks_break, beq_iff_eq, ha.loopDepth]
    exact hcheck.append (Reports.refl.cons hmark)
  | .continue keyword, .continue, _, ha, _ => by
    have hmark : Quiet program (p, .continue) := .of_ne (fun _ => nofun) fun _ => nofun
    have hcheck : Reports program [(p, .statement (.continue keyword))] [keyword] c
        (c.check (c.loopDepth == 0) .continueOutsideLoop keyword) := by
      refine .check (fun v => ?_) fun _ => nofun
      rw [Site.breaks_continue, beq_iff_eq, ha.loopDepth]
    exact hcheck.append (Reports.refl.cons hmark)

theorem Stmt.reportsAll {program : List Stmt} {p : Site} {b e : TokenId} {l : Layer} {ls : List Layer}
    {c : Context} : (ss : List Stmt) → (∀ s ∈ ss, s.Regular) → l.Body → p.Aware l c →
    Ready program p b e (ss.filterMap Stmt.declared?) l ls (Stmt.idsAll ss) (Stmt.wordsAll ss) c →
    Reports program (Stmt.sitesAll p ss) (Stmt.placesAll ss) c (Stmt.resolveAll c ss)
  | [], _, _, _, _ => .refl
  | s :: rest, hr, hl, ha, h => by
    rw [Stmt.declared_cons] at h
    obtain ⟨hs, hrest⟩ := List.forall_mem_cons.mp hr
    obtain ⟨m, h₁, h₂⟩ := h.pair s.sublist_declared (Stmt.sublist_declaredAll rest)
      (.inr hl.opening) (Site.beside_after s) fun _ h => s.walked hs hl.opening h
    have hfirst := s.reports hs hl ha h₁
    have ha' := ha.behind hfirst (Site.beside_after s) (Site.behind_after s).loopDepth s.declared?.toList
    exact hfirst.append (Stmt.reportsAll rest hrest (hl.pass _) ha' h₂)

theorem Stmt.reportsOption {program : List Stmt} {p : Site} {b e : TokenId} {l : Layer}
    {ls : List Layer} {c : Context} : (s : Option Stmt) → (∀ t ∈ s, Stmt.Regular t) → l.Body →
    p.Aware l c →
    Ready program p b e (s.bind Stmt.declared?).toList l ls (Stmt.idsOption s) (Stmt.wordsOption s) c →
    Reports program (Stmt.sitesOption p s) (Stmt.placesOption s) c (Stmt.resolveOption c s)
  | none, _, _, _, _ => .refl
  | some s, hr, hl, ha, h => s.reports (hr s rfl) hl ha h

theorem Function.reports {program : List Stmt} {p : Site} {b e : TokenId} {l : Layer}
    {ls : List Layer} {c : Context} {kind : FunctionKind} : (f : Function) → f.Regular →
    Region.functionKind (.function f :: p.regions) = kind → l.opening = none → p.Aware l c →
    Ready program p b e [] l ls f.ids f.words c →
    Reports program (f.sites kind p) f.places c (f.resolve kind c)
  | ⟨name, params, body, span⟩, .mk _ _ hb, hkind, ho, ha, h => by
    have hinner : Ready program (p.enterFunction kind ⟨name, params, body, span⟩) b e
        (params ++ body.filterMap Stmt.declared?) ⟨.function ⟨name, params, body, span⟩, [], none⟩
        (l :: ls) ([] ++ Stmt.idsAll body) (params ++ Stmt.wordsAll body) (c.enterFunction kind) :=
      h.enter rfl rfl rfl ho h.classKind (grows_enterFunction kind)
        (by rw [Layer.state_opened rfl]; rfl) rfl
    have hlayer : Layer.Body ⟨.function ⟨name, params, body, span⟩, [], none⟩ := ⟨rfl, rfl⟩
    obtain ⟨m, hparams, hbody⟩ := hinner.pair (.refl _) (Stmt.sublist_declaredAll body) (.inr rfl)
      (.refl _) fun _ h => h.parameters params (s := []) rfl (by simp)
    have haparams := ha.inFunction ho hkind
    have rparams := hparams.reportsParameters params haparams hlayer
    have rbody := Stmt.reportsAll body hb (hlayer.pass params)
      (haparams.behind rparams (.refl _) rfl params) hbody
    exact (rparams.append rbody).between rfl rfl rfl rfl rfl rfl

theorem Function.reportsMethods {program : List Stmt} {p : Site} {b e : TokenId} {l : Layer}
    {ls : List Layer} {c : Context} {k : Class} {outer : List Region} : (fs : List Function) →
    (∀ f ∈ fs, f.Regular) → p.regions = .this k :: outer → l.opening = none → p.Aware l c →
    Ready program p b e [] l ls (Function.idsAll fs) (Function.wordsAll fs) c →
    Reports program (Function.sitesMethods p fs) (Function.placesAll fs) c
      (Function.resolveMethods c fs)
  | [], _, _, _, _, _ => .refl
  | f :: rest, hr, hp, ho, ha, h => by
    have h : Ready program p b e [] l ls (f.ids ++ Function.idsAll rest)
      (f.words ++ Function.wordsAll rest) c := h
    obtain ⟨hf, hrest⟩ := List.forall_mem_cons.mp hr
    obtain ⟨m, hfirst, hsecond⟩ := h.pairExpression (List.nil_sublist _) (.inl rfl) (.refl p)
      fun _ h => f.walked f.methodKind hf ho h
    have hkind : Region.functionKind (.function f :: p.regions) = f.methodKind := by rw [hp]; rfl
    have rfirst := f.reports hf hkind ho ha hfirst
    exact rfirst.append
      (Function.reportsMethods rest hrest hp ho (ha.behind rfirst (.refl p) rfl []) hsecond)

theorem Class.reports {program : List Stmt} {p : Site} {b e : TokenId} {l : Layer} {ls : List Layer}
    {c : Context} : (k : Class) → k.Regular → l.Body → p.Aware l c →
    Ready program p b e [k.name] l ls k.ids k.words c →
    Reports program ((p, .statement (.class k)) :: k.sites p) k.places c (k.resolve c)
  | ⟨name, superclass, methods, span⟩, .mk _ hs hm, hl, ha, h => by
    have h : Ready program { p with classKind := .plain } b e ([name] ++ []) l ls
      ([] ++ (Occurrence.idsOption superclass ++ Function.idsAll methods))
      ([name] ++ (Occurrence.wordsOption superclass ++ Function.wordsAll methods))
      { c with classKind := .plain } := h.ofClassKind .plain
    obtain ⟨m, hname, hrest⟩ := h.pair (.refl _) (List.nil_sublist _) (.inr hl.opening)
      (Site.beside_declare name.lexeme) fun _ h => h.introduce (s := []) hl.opening .class (by simp)
    have rname : Reports program [(p, .name name)] [name] { c with classKind := .plain }
        (c.className name) := hname.naming (q := p) hl rfl .class
    have rname : Reports program [(p, .name name)] [name] c (c.className name) :=
      rname.between rfl rfl rfl rfl rname.function rname.loopDepth
    rw [Site.declare_classKind] at hrest
    have hopen := (hl.pass [name]).opening
    cases superclass with
    | none =>
      have hclass : Quiet program (p, .statement (.class ⟨name, none, methods, span⟩)) := by
        refine .of_ne (fun v hv => ?_) fun _ => nofun
        obtain ⟨use, huse, -⟩ := Site.breaks_class.mp hv
        cases huse
      have hinner : Ready program (p.enterClass ⟨name, none, methods, span⟩) m e [] _ _ _ _ _ :=
        hrest.inPlainClass hopen
      have hmethods := Function.reportsMethods methods hm (Site.regions_enterClass _ _) rfl
        (by exact ha.inClass hl.opening _ rname.function rname.loopDepth) hinner
      have hall : Reports program _ _ c (Class.resolve c ⟨name, none, methods, span⟩) :=
        rname.append (hmethods.between rfl rfl rfl rfl hmethods.function hmethods.loopDepth)
      exact hall.cons hclass
    | some use =>
      have hclass : Reports program [(p, .statement (.class ⟨name, some use, methods, span⟩))]
          [use.name] (c.className name) ((c.className name).check (use.name.lexeme == name.lexeme)
            .inheritsFromItself use.name) := by
        refine .check (fun v => ?_) fun _ => nofun
        rw [Site.breaks_class]
        simp
      have hrest : Ready program { p.declare name.lexeme with classKind := .subclass } m e []
          (l.pass [name]) ls ([use.id] ++ Function.idsAll methods)
          ([use.name] ++ Function.wordsAll methods) _ :=
        (hrest.step (step_check (use.name.lexeme == name.lexeme) .inheritsFromItself
          use.name)).ofClassKind .subclass
      obtain ⟨n, hread, hbody⟩ := hrest.pairExpression (List.nil_sublist _) (.inl rfl) (.refl _)
        fun _ h => h.readName (s := []) (hs use rfl).spelled (by simp)
      have hclosed : p.opening = none := by rw [ha.opening, hl.opening]; rfl
      have rread := hread.reportsSuperclass (hs use rfl).isName hopen hclosed
      have rread : Reports program [(p, .read use)] [] ((c.className name).check
          (use.name.lexeme == name.lexeme) .inheritsFromItself use.name) _ :=
        rread.between rfl rfl rfl rfl rread.function rread.loopDepth
      have rfront := rname.append (hclass.append rread)
      have hinner : Ready program (p.enterClass ⟨name, some use, methods, span⟩) n e [] _ _ _ _ _ :=
        hbody.inSubclass hopen
      have hmethods := Function.reportsMethods methods hm (Site.regions_enterClass _ _) rfl
        (by exact ha.inClass hl.opening _ rfront.function rfront.loopDepth) hinner
      have hall : Reports program _ _ c (Class.resolve c ⟨name, some use, methods, span⟩) :=
        rfront.append (hmethods.between rfl rfl rfl rfl hmethods.function hmethods.loopDepth)
      -- the check of the superclass comes behind that of the name, whose mark follows it
      refine hall.sites fun x => ?_
      simp only [List.mem_cons, List.mem_append, List.not_mem_nil, or_false, Class.sites,
        Occurrence.sitesOption, or_assoc]
      exact or_left_comm

end

/-! ## Programs -/

/-- **The walk over a program reports the broken rules and the declarations in it.** -/
theorem reports_of_resolve {program : List Stmt} (hr : ∀ s ∈ program, s.Regular)
    (hids : (Stmt.idsAll program).Nodup)
    (hwords : (Stmt.wordsAll program).Pairwise fun t u => t.id < u.id) :
    Reports program (programSites program) (Stmt.placesAll program) .start
      (Stmt.resolveAll .start program) := by
  obtain ⟨e, hready⟩ := exists_ready hids hwords
  exact Stmt.reportsAll program hr ⟨rfl, rfl⟩ ⟨rfl, rfl, rfl, rfl⟩ hready

/-- Behind the violations that were noted stand the unused definitions. -/
theorem reports_of_complaints {program : List Stmt} {errors : List Violation}
    (h : (Stmt.resolveAll .start program).complaints.reverse = errors.map Violation.complaint) :
    (resolve program).reports =
      errors.map (fun v => .error v.token.position v.problem.message) ++
        ((resolve program).symbols.definitions.toList.filter (·.references.isEmpty)).map
          (fun d => .warning d.token.position (Problem.unused d.token.lexeme).message) := by
  show List.map Complaint.report (List.reverse _ ++ _) = _
  rw [h, List.map_append, List.map_map, Resolution.unusedComplaints, List.map_map]
  rfl

/-- **The resolver reports exactly the broken rules, in the order of the text**, whatever problems
the text has. Behind them stands one warning for each definition without references, in the order
of the declarations. -/
theorem violations_reported (source : String) (firstId : ExprId) :
    let program := (parse source firstId).tree
    let r := resolve program
    ∃ errors : List Violation,
      r.reports = errors.map (fun v => .error v.token.position v.problem.message) ++
        (r.symbols.definitions.toList.filter (·.references.isEmpty)).map
          (fun d => .warning d.token.position (Problem.unused d.token.lexeme).message) ∧
      (errors.Pairwise fun v w => v.token.position.start < w.token.position.start) ∧
      (∀ v, v ∈ errors ↔ ∃ x ∈ programSites program, x.1.Breaks program x.2 v) ∧
      ((r.symbols.definitions.toList.map Definition.token).Pairwise fun t u =>
        t.position.start < u.position.start) ∧
      ∀ t, t ∈ r.symbols.definitions.toList.map Definition.token ↔
        ∃ x ∈ programSites program, x.1.Declares program x.2 t := by
  intro program r
  have hwalk := reports_of_resolve (regular_parse source firstId)
    (numbered_parse source firstId).2.nodup (pairwise_words_parse source firstId)
  have hstarts : (Stmt.placesAll program).Pairwise fun t u => t.position.start < u.position.start :=
    (starts_tokens source).sublist (sublist_places_parse source firstId)
  obtain ⟨errors, hcomplaints, herrors, hbreaks⟩ := hwalk.complaints
  obtain ⟨named, htokens, hnamed, hdeclares⟩ := hwalk.tokens
  have htokens : r.symbols.definitions.toList.map Definition.token = named :=
    htokens.trans (List.map_id named)
  rw [List.map_id] at hnamed
  rw [htokens]
  have hordered : errors.Pairwise fun v w => v.token.position.start < w.token.position.start := by
    have := hstarts.sublist herrors
    rwa [List.pairwise_map] at this
  exact ⟨errors, reports_of_complaints hcomplaints, hordered, hbreaks, hstarts.sublist hnamed,
    hdeclares⟩

end Lox
