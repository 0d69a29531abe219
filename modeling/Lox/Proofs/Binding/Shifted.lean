import Lox.Proofs.Binding.Joined
import Lox.Proofs.Binding.Padding

/-!
# The distances of the while form

A program and its while form have tables of their own. Where scopes lie only in the while form, its
distances are greater by the number of these scopes on the way.

* `Mark.Moves`, `Expr.Moves`: the distances of both tables for an expression at a place;
* `Stmt.Matches`, `Function.Matches`: a statement with its while form, and their distances;
* `Site.Pads`: the same place of both programs;
* **`Stmt.Lowers.matched`**: the distances of legal programs are related this way,
  **`matches_of_lowers`**: in particular those that the resolver records.
-/

namespace Lox

/-! ## Related distances -/

section Tables

variable (T T' : Distances)

/-- The bindings to which a mark leads are moved. -/
def Mark.Moves (pads : List Nat) : Mark → Prop
  | .read use | .write use => Option.Rel (Shifts pads) T[use.id]? T'[use.id]?
  | .super keyword => ∃ d d', T[keyword.id]? = some (d + 1) ∧ T'[keyword.id]? = some (d' + 1) ∧
      Shifts pads d d' ∧ Shifts pads (d + 1) (d' + 1)
  | _ => True

/-- The bindings to which an expression leads are moved. -/
def Expr.Moves (pads : List Nat) (e : Expr) : Prop := ∀ m ∈ e.marks, m.Moves T T' pads

mutual

/-- The second statement is the first one with some `for` statements in their while form. They stand
in scopes padded by `pads`, and bindings to which they lead are moved. -/
inductive Stmt.Matches : List Nat → Stmt → Stmt → Prop where
  | expression {pads e} : e.Moves T T' pads → Stmt.Matches pads (.expression e) (.expression e)
  | print {pads e} : e.Moves T T' pads → Stmt.Matches pads (.print e) (.print e)
  | var {pads name initializer} : (∀ e ∈ initializer, Expr.Moves T T' (0 :: pads) e) →
      Stmt.Matches (0 :: pads) (.var name initializer) (.var name initializer)
  | block {pads body body'} : Stmt.MatchesAll (0 :: pads) body body' →
      Stmt.Matches pads (.block body) (.block body')
  | ifThen {pads condition thenBranch thenBranch'} : condition.Moves T T' pads →
      Stmt.Matches pads thenBranch thenBranch' →
      Stmt.Matches pads (.ifElse condition thenBranch none) (.ifElse condition thenBranch' none)
  | ifElse {pads condition thenBranch thenBranch' elseBranch elseBranch'} :
      condition.Moves T T' pads → Stmt.Matches pads thenBranch thenBranch' →
      Stmt.Matches pads elseBranch elseBranch' →
      Stmt.Matches pads (.ifElse condition thenBranch (some elseBranch))
        (.ifElse condition thenBranch' (some elseBranch'))
  | whileLoop {pads condition body body'} : condition.Moves T T' pads →
      Stmt.Matches pads body body' →
      Stmt.Matches pads (.whileLoop condition body) (.whileLoop condition body')
  | forLoop {pads initializer condition increment body body'} :
      (∀ s ∈ initializer, Stmt.Matches (0 :: pads) s s) →
      (∀ e ∈ condition, Expr.Moves T T' (0 :: pads) e) →
      (∀ e ∈ increment, Expr.Moves T T' (0 :: pads) e) → Stmt.Matches (0 :: pads) body body' →
      Stmt.Matches pads (.forLoop initializer condition increment body)
        (.forLoop initializer condition increment body')
  | whileForm {pads initializer condition increment body body'} :
      (∀ s ∈ initializer, s.isClause = true) → (∀ s ∈ initializer, Stmt.Matches (0 :: pads) s s) →
      (∀ e ∈ condition, Expr.Moves T T' (0 :: pads) e) →
      (∀ e ∈ increment, Expr.Moves T T' (1 :: pads) e) → Stmt.Matches (1 :: pads) body body' →
      body.continues = false →
      Stmt.Matches pads (.forLoop initializer condition increment body)
        (.whileForm initializer condition increment body')
  | function {pads declaration declaration'} :
      Function.Matches (0 :: pads) declaration declaration' →
      Stmt.Matches (0 :: pads) (.function declaration) (.function declaration')
  | class {pads name superclass span methods methods'} :
      (∀ use ∈ superclass, Mark.Moves T T' (0 :: pads) (.read use)) →
      Function.MatchesAll (classPads superclass (0 :: pads)) methods methods' →
      Stmt.Matches (0 :: pads) (.class ⟨name, superclass, methods, span⟩)
        (.class ⟨name, superclass, methods', span⟩)
  | return {pads keyword value} : (∀ e ∈ value, Expr.Moves T T' pads e) →
      Stmt.Matches pads (.return keyword value) (.return keyword value)
  | break {pads keyword} : Stmt.Matches pads (.break keyword) (.break keyword)
  | continue {pads keyword} : Stmt.Matches pads (.continue keyword) (.continue keyword)

/-- The statements of a row match one another. -/
inductive Stmt.MatchesAll : List Nat → List Stmt → List Stmt → Prop where
  | nil {pads} : Stmt.MatchesAll pads [] []
  | cons {pads s s' rest rest'} : Stmt.Matches pads s s' → Stmt.MatchesAll pads rest rest' →
      Stmt.MatchesAll pads (s :: rest) (s' :: rest')

/-- The bodies of two functions match one another in the scope of the parameters. -/
inductive Function.Matches : List Nat → Function → Function → Prop where
  | mk {pads name params body body' span} : Stmt.MatchesAll (0 :: pads) body body' →
      Function.Matches pads ⟨name, params, body, span⟩ ⟨name, params, body', span⟩

/-- The methods of two classes match one another. -/
inductive Function.MatchesAll : List Nat → List Function → List Function → Prop where
  | nil {pads} : Function.MatchesAll pads [] []
  | cons {pads f f' rest rest'} : Function.Matches pads f f' →
      Function.MatchesAll pads rest rest' → Function.MatchesAll pads (f :: rest) (f' :: rest')

end

end Tables

/-! ## The same place of both programs -/

/-- **The distances of legal marks are related** where the names are. -/
theorem Mark.Legal.moves {T T' : Distances} {pads : List Nat} {p p' : Site} {m : Mark}
    (hm : m.Legal T p) (hm' : m.Legal T' p')
    (hd : ∀ name, Option.Rel (Shifts pads) (p.distance? name) (p'.distance? name))
    (ht : ∀ name, Option.Rel (Shifts pads) (p.target? name) (p'.target? name)) :
    m.Moves T T' pads := by
  cases m with
  | read use =>
    show Option.Rel _ T[use.id]? T'[use.id]?
    rw [show T[use.id]? = _ from hm, show T'[use.id]? = _ from hm']
    exact hd _
  | write target =>
    show Option.Rel _ T[target.id]? T'[target.id]?
    rw [show T[target.id]? = _ from hm, show T'[target.id]? = _ from hm']
    exact ht _
  | super keyword =>
    obtain ⟨d, hthis, hk, hsuper, -⟩ := hm
    obtain ⟨d', hthis', hk', hsuper', -⟩ := hm'
    have hinner := hd Keyword.this.spelling
    have houter := hd Keyword.super.spelling
    rw [hthis, hthis', Option.rel_some_some] at hinner
    rw [hsuper, hsuper', Option.rel_some_some] at houter
    exact ⟨d, d', hk, hk', hinner, houter⟩
  | _ => trivial

/-- The same place of both programs, outside every initializer: the scopes around it bind the same
names, but for scopes of the second program that bind none. -/
structure Site.Pads (pads : List Nat) (p p' : Site) : Prop where
  frames : Padded (fun f f' => f'.names = f.names) (fun f' => f'.names = []) pads p.frames p'.frames
  closed : p.opening = none
  closed' : p'.opening = none

namespace Site.Pads

variable {T T' : Distances} {p p' : Site} {n : Nat} {pads : List Nat}

theorem start : Site.Pads [0] .start .start := ⟨.cons rfl .nil, rfl, rfl⟩

theorem distance? (h : Site.Pads pads p p') (name : String) :
    Option.Rel (Shifts pads) (p.distance? name) (p'.distance? name) :=
  h.frames.findIdx? (fun _ _ hn => congrArg (·.contains name) hn)
    (fun _ hb => congrArg (·.contains name) hb)

theorem moves (h : Site.Pads pads p p') {m : Mark} (hm : m.Legal T p) (hm' : m.Legal T' p') :
    m.Moves T T' pads := by
  refine hm.moves hm' h.distance? fun name => ?_
  rw [Site.target?, Site.target?, h.closed, h.closed', if_neg nofun, if_neg nofun]
  exact h.distance? name

theorem expression (h : Site.Pads pads p p') {e : Expr} (he : ∀ x ∈ e.sites p, x.2.Legal T x.1)
    (he' : ∀ x ∈ e.sites p', x.2.Legal T' x.1) : e.Moves T T' pads := fun m hm =>
  h.moves (he (p, m) (List.mem_map_of_mem hm)) (he' (p', m) (List.mem_map_of_mem hm))

theorem expressionOption (h : Site.Pads pads p p') {e : Option Expr}
    (he : ∀ x ∈ Expr.sitesOption p e, x.2.Legal T x.1)
    (he' : ∀ x ∈ Expr.sitesOption p' e, x.2.Legal T' x.1) : ∀ x ∈ e, Expr.Moves T T' pads x := by
  rintro x rfl
  exact h.expression he he'

theorem initializer (h : Site.Pads (0 :: pads) p p') {name : String} {e : Option Expr}
    (he : ∀ x ∈ Expr.sitesOption (p.initializing name) e, x.2.Legal T x.1)
    (he' : ∀ x ∈ Expr.sitesOption (p'.initializing name) e, x.2.Legal T' x.1) :
    ∀ x ∈ e, Expr.Moves T T' (0 :: pads) x := by
  rintro x rfl m hm
  have hlegal : m.Legal T (p.initializing name) := he _ (List.mem_map_of_mem hm)
  have hlegal' : m.Legal T' (p'.initializing name) := he' _ (List.mem_map_of_mem hm)
  refine hlegal.moves hlegal' h.distance? fun other => ?_
  show Option.Rel _ (if some name = some other then some 0 else p.distance? other)
    (if some name = some other then some 0 else p'.distance? other)
  split
  · exact .some .here
  · exact h.distance? other

theorem enter (h : Site.Pads pads p p') (region region' : Region) (names : List String) :
    Site.Pads (0 :: pads) (p.enter region names) (p'.enter region' names) :=
  ⟨.cons rfl h.frames, h.closed, h.closed'⟩

theorem enterPad (h : Site.Pads (n :: pads) p p') (region' : Region) :
    Site.Pads ((n + 1) :: pads) p (p'.enter region' []) :=
  ⟨.pad rfl h.frames, h.closed, h.closed'⟩

theorem enterLoop (h : Site.Pads pads p p') : Site.Pads pads p.enterLoop p'.enterLoop :=
  ⟨h.frames, h.closed, h.closed'⟩

theorem declare (h : Site.Pads (0 :: pads) p p') (name : String) :
    Site.Pads (0 :: pads) (p.declare name) (p'.declare name) := by
  obtain ⟨f, f', rest, rest', hf, hf', hn, hr⟩ := h.frames.cons_inv
  rw [Site.declare_eq hf, Site.declare_eq hf']
  exact ⟨.cons (congrArg (name :: ·) hn) hr, h.closed, h.closed'⟩

theorem enterFunction (h : Site.Pads pads p p') (kind : FunctionKind) (f f' : Function)
    (hf : f'.params = f.params) :
    Site.Pads (0 :: pads) (p.enterFunction kind f) (p'.enterFunction kind f') :=
  ⟨.cons (congrArg (List.map Token.lexeme) hf) h.frames, h.closed, h.closed'⟩

theorem enterClass (h : Site.Pads (0 :: pads) p p') (k k' : Class) (hn : k'.name = k.name)
    (hs : k'.superclass = k.superclass) :
    Site.Pads (classPads k.superclass (0 :: pads)) (p.enterClass k) (p'.enterClass k') := by
  have hd := h.declare k.name.lexeme
  unfold Site.enterClass Site.enterSuper
  rw [hn, hs]
  cases k.superclass with
  | none => exact ⟨.cons rfl hd.frames, hd.closed, hd.closed'⟩
  | some use => exact ⟨.cons rfl (.cons rfl hd.frames), hd.closed, hd.closed'⟩

theorem after (h : Site.Pads (n :: pads) p p') {s t : Stmt} (hl : s.Lowers t)
    (hd : s.declares = true → n = 0) : Site.Pads (n :: pads) (p.after s) (p'.after t) := by
  cases hl with
  | var name | «class» name =>
    cases hd rfl
    exact h.declare name.lexeme
  | function hf =>
    cases hd rfl
    show Site.Pads _ (p.declare _) (p'.declare _)
    rw [hf.name]
    exact h.declare _
  | _ => exact h

theorem afterOption (h : Site.Pads (0 :: pads) p p') (s : Option Stmt) :
    Site.Pads (0 :: pads) (p.afterOption s) (p'.afterOption s) := by
  cases s with
  | none => exact h
  | some s => exact h.after (.refl s) fun _ => rfl

theorem clause (h : Site.Pads (0 :: pads) p p') {s : Option Stmt}
    (hi : ∀ x ∈ s, Stmt.isClause x = true)
    (hs : ∀ x ∈ Stmt.sitesOption p s, x.2.Legal T x.1)
    (hs' : ∀ x ∈ Stmt.sitesOption p' s, x.2.Legal T' x.1) :
    ∀ x ∈ s, Stmt.Matches T T' (0 :: pads) x x := by
  rintro x rfl
  cases x with
  | var name e =>
    exact .var (h.initializer (List.forall_mem_cons.mp (List.forall_mem_cons.mp hs).2).2
      (List.forall_mem_cons.mp (List.forall_mem_cons.mp hs').2).2)
  | expression e =>
    exact .expression (h.expression (List.forall_mem_cons.mp hs).2 (List.forall_mem_cons.mp hs').2)
  | _ => cases hi _ rfl

end Site.Pads

/-! ## Statements -/

theorem Stmt.sitesAll_toList (p : Site) (s : Option Stmt) :
    Stmt.sitesAll p s.toList = Stmt.sitesOption p s := by
  cases s with
  | none => rfl
  | some s => exact List.append_nil _

/-- What holds at all marks of the while form of a `for` statement holds at those of its clauses. -/
theorem Stmt.forall_sites_whileForm {P : Site × Mark → Prop} {p : Site} {initializer : Option Stmt}
    {condition increment : Option Expr} {body : Stmt} (hbody : body.declares = false)
    (h : ∀ x ∈ (Stmt.whileForm initializer condition increment body).sites p, P x) :
    ∃ outer inner, (∀ x ∈ Stmt.sitesOption (p.enter outer []) initializer, P x) ∧
      (∀ x ∈ Expr.sitesOption ((p.enter outer []).afterOption initializer) condition, P x) ∧
      (∀ x ∈ body.sites (((p.enter outer []).afterOption initializer).enterLoop.enter inner []),
        P x) ∧
      ∀ x ∈ Expr.sitesOption (((p.enter outer []).afterOption initializer).enterLoop.enter inner [])
        increment, P x := by
  have hafter (q : Site) : q.afterAll initializer.toList = q.afterOption initializer := by
    cases initializer <;> rfl
  simp only [Stmt.whileForm, Stmt.whileRounds, Stmt.whileBody, Stmt.sites, Stmt.sitesAll,
    Stmt.sitesAll_append, Stmt.sitesAll_toList, hafter, Site.after_of_not_declares hbody,
    List.forall_mem_cons, List.forall_mem_append] at h
  obtain ⟨-, hf, ⟨-, hc, -, hb, hi⟩, -⟩ := h
  refine ⟨_, _, hf, ?_, hb, ?_⟩
  · cases condition with
    | none => exact fun _ hx => absurd hx List.not_mem_nil
    | some e => exact hc
  · cases increment with
    | none => exact fun _ hx => absurd hx List.not_mem_nil
    | some e =>
      rw [Option.toList_some, List.map_cons, Stmt.sitesAll, List.forall_mem_append] at hi
      exact (List.forall_mem_cons.mp hi.1).2

mutual

/-- **The distances of legal statements are related.** A statement that declares a name stands
directly in a scope that both programs have. -/
theorem Stmt.Lowers.matched {T T' : Distances} {s t : Stmt} {p p' : Site} {n : Nat}
    {pads : List Nat} : s.Lowers t → s.Regular → (s.declares = true → n = 0) →
    Site.Pads (n :: pads) p p' → (∀ x ∈ s.sites p, x.2.Legal T x.1) →
    (∀ x ∈ t.sites p', x.2.Legal T' x.1) → Stmt.Matches T T' (n :: pads) s t
  | .expression e, _, _, h, hs, hs' =>
    .expression (h.expression (List.forall_mem_cons.mp hs).2 (List.forall_mem_cons.mp hs').2)
  | .print e, _, _, h, hs, hs' =>
    .print (h.expression (List.forall_mem_cons.mp hs).2 (List.forall_mem_cons.mp hs').2)
  | .var name initializer, _, hd, h, hs, hs' => by
    cases hd rfl
    exact .var (h.initializer (List.forall_mem_cons.mp (List.forall_mem_cons.mp hs).2).2
      (List.forall_mem_cons.mp (List.forall_mem_cons.mp hs').2).2)
  | .block hl, .block hr, _, h, hs, hs' =>
    .block (hl.matched hr (h.enter _ _ []) (List.forall_mem_cons.mp hs).2
      (List.forall_mem_cons.mp hs').2)
  | .ifThen condition hl, .ifElse _ hr hn _ _, _, h, hs, hs' => by
    simp only [Stmt.sites, List.forall_mem_cons, List.forall_mem_append] at hs hs'
    obtain ⟨-, ⟨hc, ht⟩, -⟩ := hs
    obtain ⟨-, ⟨hc', ht'⟩, -⟩ := hs'
    exact .ifThen (h.expression hc hc')
      (hl.matched hr (padless hn) h ht ht')
  | .ifElse condition hl₁ hl₂, .ifElse _ hr₁ hn₁ hr₂ hn₂, _, h, hs, hs' => by
    simp only [Stmt.sites, List.forall_mem_cons, List.forall_mem_append] at hs hs'
    obtain ⟨-, ⟨hc, ht⟩, he⟩ := hs
    obtain ⟨-, ⟨hc', ht'⟩, he'⟩ := hs'
    exact .ifElse (h.expression hc hc')
      (hl₁.matched hr₁ (padless hn₁) h ht ht')
      (hl₂.matched (hr₂ _ rfl) (padless (hn₂ _ rfl)) h he he')
  | .whileLoop condition hl, .whileLoop _ hr hn, _, h, hs, hs' => by
    simp only [Stmt.sites, List.forall_mem_cons, List.forall_mem_append] at hs hs'
    obtain ⟨-, hc, hb⟩ := hs
    obtain ⟨-, hc', hb'⟩ := hs'
    exact .whileLoop (h.expression hc hc')
      (hl.matched hr (padless hn) h.enterLoop hb hb')
  | @Stmt.Lowers.forLoop initializer condition increment body body' hl, .forLoop _ hi _ _ hr hn, _,
      h, hs, hs' => by
    simp only [Stmt.sites, List.forall_mem_cons, List.forall_mem_append] at hs hs'
    obtain ⟨-, ⟨⟨hf, hc⟩, hi'⟩, hb⟩ := hs
    obtain ⟨-, ⟨⟨hf', hc'⟩, hi''⟩, hb'⟩ := hs'
    have hinner := h.enter (.clauses initializer condition increment body)
      (.clauses initializer condition increment body') []
    have hbehind := hinner.afterOption initializer
    exact .forLoop (hinner.clause hi hf hf') (hbehind.expressionOption hc hc')
      (hbehind.expressionOption hi' hi'')
      (hl.matched hr (padless hn) hbehind.enterLoop hb hb')
  | @Stmt.Lowers.whileForm initializer condition increment body body' hl hown,
      .forLoop _ hi _ _ hr hn, _, h, hs, hs' => by
    simp only [Stmt.sites, List.forall_mem_cons, List.forall_mem_append] at hs
    obtain ⟨-, ⟨⟨hf, hc⟩, hi'⟩, hb⟩ := hs
    obtain ⟨outer, inner, hf', hc', hb', hi''⟩ :=
      Stmt.forall_sites_whileForm (hl.declares.trans hn) hs'
    have hinner := h.enter (.clauses initializer condition increment body) outer []
    have hbehind := hinner.afterOption initializer
    have hround := hbehind.enterLoop.enterPad inner
    have hstep : Site.Pads (1 :: n :: pads)
        ((p.enter (.clauses initializer condition increment body) []).afterOption initializer)
        (((p'.enter outer []).afterOption initializer).enterLoop.enter inner []) :=
      ⟨hround.frames, hround.closed, hround.closed'⟩
    exact .whileForm hi (hinner.clause hi hf hf') (hbehind.expressionOption hc hc')
      (hstep.expressionOption hi' hi'')
      (hl.matched hr (padless hn) hround hb hb') hown
  | .function hl, .function hr, hd, h, hs, hs' => by
    cases hd rfl
    simp only [Stmt.sites, List.forall_mem_cons] at hs hs'
    rw [hl.name] at hs'
    exact .function (hl.matched .function hr (h.declare _) hs.2.2 hs'.2.2)
  | @Stmt.Lowers.class name superclass span methods methods' hl, .class (.mk _ _ hr), hd, h, hs,
      hs' => by
    cases hd rfl
    have hinner := h.enterClass ⟨name, superclass, methods, span⟩ ⟨name, superclass, methods', span⟩
      rfl rfl
    simp only [Stmt.sites, Class.sites, List.forall_mem_cons, List.forall_mem_append] at hs hs'
    refine .class ?_ (hl.matched hr hinner hs.2.2.2 hs'.2.2.2)
    rintro use rfl
    exact h.moves (hs.2.2.1 _ List.mem_cons_self) (hs'.2.2.1 _ List.mem_cons_self)
  | .return keyword value, _, _, h, hs, hs' =>
    .return (h.expressionOption (List.forall_mem_cons.mp (List.forall_mem_cons.mp hs).2).2
      (List.forall_mem_cons.mp (List.forall_mem_cons.mp hs').2).2)
  | .break _, _, _, _, _, _ => .break
  | .continue _, _, _, _, _, _ => .continue

theorem Stmt.LowersAll.matched {T T' : Distances} {ss ts : List Stmt} {p p' : Site}
    {pads : List Nat} : Stmt.LowersAll ss ts → (∀ s ∈ ss, s.Regular) → Site.Pads (0 :: pads) p p' →
    (∀ x ∈ Stmt.sitesAll p ss, x.2.Legal T x.1) → (∀ x ∈ Stmt.sitesAll p' ts, x.2.Legal T' x.1) →
    Stmt.MatchesAll T T' (0 :: pads) ss ts
  | .nil, _, _, _, _ => .nil
  | .cons hl hls, hr, h, hs, hs' =>
    .cons (hl.matched (hr _ List.mem_cons_self) (fun _ => rfl) h (List.forall_mem_append.mp hs).1
        (List.forall_mem_append.mp hs').1)
      (hls.matched (fun s hs => hr s (List.mem_cons_of_mem _ hs)) (h.after hl fun _ => rfl)
        (List.forall_mem_append.mp hs).2 (List.forall_mem_append.mp hs').2)

theorem Function.Lowers.matched {T T' : Distances} {f f' : Function} {p p' : Site}
    {pads : List Nat} (kind : FunctionKind) : f.Lowers f' → f.Regular → Site.Pads pads p p' →
    (∀ x ∈ f.sites kind p, x.2.Legal T x.1) → (∀ x ∈ f'.sites kind p', x.2.Legal T' x.1) →
    Function.Matches T T' pads f f'
  | @Function.Lowers.mk name params span body body' hl, .mk _ _ hr, h, hs, hs' =>
    .mk (hl.matched hr
      (h.enterFunction kind ⟨name, params, body, span⟩ ⟨name, params, body', span⟩ rfl)
      (List.forall_mem_append.mp hs).2 (List.forall_mem_append.mp hs').2)

theorem Function.LowersAll.matched {T T' : Distances} {fs fs' : List Function} {p p' : Site}
    {pads : List Nat} : Function.LowersAll fs fs' → (∀ f ∈ fs, f.Regular) → Site.Pads pads p p' →
    (∀ x ∈ Function.sitesMethods p fs, x.2.Legal T x.1) →
    (∀ x ∈ Function.sitesMethods p' fs', x.2.Legal T' x.1) → Function.MatchesAll T T' pads fs fs'
  | .nil, _, _, _, _ => .nil
  | .cons hl hls, hr, h, hs, hs' => by
    rw [Function.sitesMethods, List.forall_mem_append] at hs hs'
    rw [hl.methodKind] at hs'
    exact .cons (hl.matched _ (hr _ List.mem_cons_self) h hs.1 hs'.1)
      (hls.matched (fun f hf => hr f (List.mem_cons_of_mem _ hf)) h hs.2 hs'.2)

end

/-! ## Programs -/

/-- **The distances that the resolver records for a program and its while form are related**, in all
tables that hold them. -/
theorem matches_of_lowers {program lowered : List Stmt} (hl : Stmt.LowersAll program lowered)
    (hr : ∀ s ∈ program, s.Regular) (hn : (Stmt.idsAll program).Nodup)
    (h : (resolve program).hasError = false) {T T' : Distances}
    (hT : ∀ id : ExprId, T[id]? = (resolve program).distances[id]?)
    (hT' : ∀ id : ExprId, T'[id]? = (resolve lowered).distances[id]?) :
    Stmt.MatchesAll T T' [0] program lowered :=
  hl.matched hr .start (legal_of_resolve hr hn h fun id _ => hT id)
    (legal_of_resolve (hl.regular hr) (hl.ids.nodup_iff.mpr hn) (hasError_of_lowers hl hr h)
      fun id _ => hT' id)

end Lox
