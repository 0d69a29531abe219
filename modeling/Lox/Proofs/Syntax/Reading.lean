import Lox.Proofs.Syntax.Cursor
import Lox.Proofs.Syntax.Grammar

/-!
# What a rule reads

* `Followed`: rows of tokens that one row makes up with another one;
* `Stretch`: what was read on the way from one cursor to another one, **`Stretch.trans`**: what was
  read on two ways that follow one another;
* `Part`: a part of the grammar, `Reads`: a tree of that part was read;
* `Parses`: a rule reads such a tree or gives up, however the text goes on, as long as the text is
  shorter than a bound.
-/

namespace Lox

/-- Rows that consist of a row of the first kind and a row of the second kind. -/
def Followed (first second : List Token → Prop) (ts : List Token) : Prop :=
  ∃ us vs, ts = us ++ vs ∧ first us ∧ second vs

/-- What was read on the way from `c` to `d`: the occurrences on it have the numbers `ids`, and
unless a problem was noted on it, the tokens on it are as `written` says. -/
structure Stretch (c : Cursor) (ids : List ExprId) (written : List Token → Prop) (d : Cursor) :
    Prop where
  leads : c.Leads d
  numbered : Numbered c.nextId d.nextId ids
  written : c.Silent d → ∃ ts, c.tokens = ts ++ d.tokens ∧ written ts

namespace Stretch

variable {c d e : Cursor} {xs ys : List ExprId} {P Q : List Token → Prop}

theorem refl (c : Cursor) : Stretch c [] (· = []) c := ⟨.refl c, .nil, fun _ => ⟨[], rfl, rfl⟩⟩

/-- **What was read on two ways that follow one another.** -/
theorem trans (h : Stretch c xs P d) (h' : Stretch d ys Q e) :
    Stretch c (xs ++ ys) (Followed P Q) e where
  leads := h.leads.trans h'.leads
  numbered := h.numbered.append h'.numbered h.leads.nextId h'.leads.nextId
  written := by
    intro hs
    obtain ⟨hcd, hde⟩ := h.leads.silent_of_trans h'.leads hs
    obtain ⟨us, hus, hP⟩ := h.written hcd
    obtain ⟨vs, hvs, hQ⟩ := h'.written hde
    exact ⟨us ++ vs, by rw [hus, hvs, List.append_assoc], us, vs, rfl, hP, hQ⟩

theorem sound (h : Stretch c xs P d) (hc : c.Sound) : d.Sound := h.leads.sound hc

theorem imp (h : Stretch c xs P d) (hids : xs.Perm ys) (hP : ∀ ts, P ts → Q ts) :
    Stretch c ys Q d :=
  ⟨h.leads, h.numbered.perm hids, fun hs =>
    let ⟨ts, hts, hp⟩ := h.written hs
    ⟨ts, hts, hP ts hp⟩⟩

theorem ofPasses {t : Token} (h : c.Passes t d) : Stretch c [] (· = [t]) d :=
  ⟨h.leads, .nil, fun _ => ⟨[t], h.tokens, rfl⟩⟩

theorem freshId (c : Cursor) :
    Stretch c [c.nextId] (· = []) { c with nextId := c.nextId + 1 } :=
  ⟨Parser.leads_freshId, .single rfl, fun _ => ⟨[], rfl, rfl⟩⟩

theorem head (h : Stretch c xs P d) (hshorter : d.tokens.length < c.tokens.length) :
    Stretch c xs (fun ts => P ts ∧ ∃ us, ts = c.current :: us) d where
  leads := h.leads
  numbered := h.numbered
  written := by
    intro hs
    obtain ⟨ts, hts, hP⟩ := h.written hs
    refine ⟨ts, hts, hP, ?_⟩
    cases ts with
    | nil =>
      rw [hts, List.nil_append] at hshorter
      exact absurd hshorter (Nat.lt_irrefl _)
    | cons t us =>
      rw [Cursor.tokens, List.cons_append, List.cons.injEq] at hts
      exact ⟨us, by rw [hts.1]⟩

/-- Where a problem was noted nothing is said about the tokens. -/
theorem behind_problem (hl : c.Leads d) (hs : ¬ c.Silent d) (h : Stretch d xs P e) :
    Stretch c xs Q e :=
  ⟨hl.trans h.leads, h.numbered.widen hl.nextId (Nat.le_refl _),
    fun he => absurd (hl.silent_of_trans h.leads he).1 hs⟩

/-- A rule that gives up behind what was read gives up in front of it. -/
theorem halted {h : Halt} (hr : Stretch c xs P d) (hh : Halted d h e) : Halted c h e :=
  hh.trans hr.leads

theorem bind {α β : Type} {x : Parser α} {f : α → Parser β} {ok : α → Cursor → Prop}
    {ok' : β → Cursor → Prop} (hr : Stretch c xs P d) (hx : Ensures x d ok (Halted d))
    (hf : ∀ a e, ok a e → Ensures (f a) e ok' (Halted c)) : Ensures (x >>= f) d ok' (Halted c) :=
  hx.bind (fun a e _ ha => hf a e ha) (fun _ _ hh => hr.halted hh)

end Stretch

/-! ## Trees -/

/-- A part of the grammar: the numbers of the occurrences of its trees, what its trees have in
common, and the rows of tokens that stand for them. -/
structure Part (α : Type) where
  ids : α → List ExprId
  regular : α → Prop
  written : List Token → α → Prop

namespace Part

/-- Expressions of a rank. -/
def expression (rank : Grammar.Rank) : Part Expr :=
  ⟨Expr.ids, Expr.Regular, Grammar.Expression rank⟩

/-- The arguments of a call. -/
def arguments : Part (List Expr) :=
  ⟨Expr.idsAll, fun es => ∀ e ∈ es, Expr.Regular e,
    fun ts es => Grammar.Arguments ts es ∧ es.length ≤ maxListed⟩

/-- An expression that may be missing. -/
def optional : Part (Option Expr) :=
  ⟨Expr.idsOption, fun o => ∀ e ∈ o, Expr.Regular e, Grammar.Optional⟩

/-- Statements. -/
def statement : Part Stmt :=
  ⟨Stmt.ids, fun s => s.Regular ∧ s.declares = false, Grammar.Statement⟩

/-- Declarations and statements. -/
def declaration : Part Stmt := ⟨Stmt.ids, Stmt.Regular, Grammar.Declaration⟩

/-- Rows of declarations. -/
def declarations : Part (List Stmt) :=
  ⟨Stmt.idsAll, fun ss => ∀ s ∈ ss, Stmt.Regular s, Grammar.Declarations⟩

/-- Functions from their name on, whose declaration begins with the given token. -/
def callable (first : Token) : Part Function :=
  ⟨Function.ids, Function.Regular, Grammar.Callable first⟩

/-- The methods of a class. -/
def methods : Part (List Function) :=
  ⟨Function.idsAll, fun fs => ∀ f ∈ fs, Function.Regular f, Grammar.Methods⟩

end Part

/-- Between `c` and `d` a tree of the given part was read. -/
structure Reads {α : Type} (part : Part α) (c : Cursor) (a : α) (d : Cursor) : Prop where
  stretch : Stretch c (part.ids a) (part.written · a) d
  regular : part.regular a

/-- Between `c` and `d` a tree of the given part was read, of at least one token. -/
structure Takes {α : Type} (part : Part α) (c : Cursor) (a : α) (d : Cursor) : Prop extends
    Reads part c a d where
  shorter : d.tokens.length < c.tokens.length

/-- In front of fewer than `bound` tokens the rule reads a tree of the given part, of at least one
token, or gives up with a problem. -/
def Parses {α : Type} (part : Part α) (rule : Parser α) (bound : Nat) : Prop :=
  ∀ c : Cursor, c.Sound → c.tokens.length < bound → Ensures rule c (Takes part c) (Halted c)

namespace Stretch

variable {c d : Cursor} {xs : List ExprId} {P : List Token → Prop} {β : Type}
  {ok : β → Cursor → Prop}

theorem mark (h : Stretch c xs P d) (hc : c.Sound) {p : Punct} {place : Place}
    {f : Token → Parser β}
    (hf : ∀ t e, t.IsMark p → e.tokens.length < d.tokens.length →
      Stretch c xs (Followed P (· = [t])) e → Ensures (f t) e ok (Halted c)) :
    Ensures (Parser.expectMark p place >>= f) d ok (Halted c) := by
  refine h.bind (Parser.ensures_expectMark (h.sound hc) _ _) fun t e ht => ?_
  refine hf t e ht.2 ht.1.length_lt ((h.trans (.ofPasses ht.1)).imp ?_ fun _ hts => hts)
  rw [List.append_nil]

theorem name (h : Stretch c xs P d) (hc : c.Sound) {problem : SyntaxProblem} {f : Token → Parser β}
    (hf : ∀ t e, t.Names → e.tokens.length < d.tokens.length →
      Stretch c xs (Followed P (· = [t])) e → Ensures (f t) e ok (Halted c)) :
    Ensures (Parser.expect .identifier problem >>= f) d ok (Halted c) := by
  refine h.bind (Parser.ensures_expect_identifier (h.sound hc) _) fun t e ht => ?_
  refine hf t e ht.2 ht.1.length_lt ((h.trans (.ofPasses ht.1)).imp ?_ fun _ hts => hts)
  rw [List.append_nil]

theorem pass (h : Stretch c xs P d) (hc : c.Sound) (hend : d.current.terminal ≠ .endOfInput)
    {f : Token → Parser β}
    (hf : ∀ e, d.current.Spelled → e.tokens.length < d.tokens.length →
      Stretch c xs (Followed P (· = [d.current])) e → Ensures (f d.current) e ok (Halted c)) :
    Ensures (Parser.advance >>= f) d ok (Halted c) := by
  refine h.bind (Parser.ensures_advance_of (h.sound hc) hend) fun t e ht => ?_
  obtain ⟨rfl, hpass, hspelled⟩ := ht
  refine hf e hspelled hpass.length_lt ((h.trans (.ofPasses hpass)).imp ?_ fun _ hts => hts)
  rw [List.append_nil]

theorem reads {α : Type} {part : Part α} (h : Stretch c xs P d) {x : Parser α}
    (hx : Ensures x d (Reads part d) (Halted d)) {f : α → Parser β}
    (hf : ∀ a e, part.regular a → e.tokens.length ≤ d.tokens.length →
      Stretch c (xs ++ part.ids a) (Followed P (part.written · a)) e →
        Ensures (f a) e ok (Halted c)) :
    Ensures (x >>= f) d ok (Halted c) :=
  h.bind hx fun a e ha => hf a e ha.regular ha.stretch.leads.length_le (h.trans ha.stretch)

theorem tree {α : Type} {part : Part α} (h : Stretch c xs P d) (hc : c.Sound) {rule : Parser α}
    {bound : Nat} (hr : Parses part rule bound) (hl : d.tokens.length < bound) {f : α → Parser β}
    (hf : ∀ a e, part.regular a → e.tokens.length < d.tokens.length →
      Stretch c (xs ++ part.ids a) (Followed P (part.written · a)) e →
        Ensures (f a) e ok (Halted c)) :
    Ensures (rule >>= f) d ok (Halted c) :=
  h.bind (hr d (h.sound hc) hl) fun a e ha => hf a e ha.regular ha.shorter (h.trans ha.stretch)

end Stretch

theorem Parses.mono {α : Type} {part : Part α} {rule : Parser α} {bound bound' : Nat}
    (h : Parses part rule bound) (hb : bound' ≤ bound) : Parses part rule bound' :=
  fun c hc hl => h c hc (Nat.lt_of_lt_of_le hl hb)

end Lox
