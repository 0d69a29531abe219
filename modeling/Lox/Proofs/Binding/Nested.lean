import Lox.Proofs.Binding.Fit
import Lox.Proofs.Syntax.Regular

/-!
# How the scopes of classes nest

The body of a class lies in a scope of `this`, and that of a subclass in a scope of `super` around
it. No other scope binds these words, so that the nearest scope of `this` belongs to the nearest
enclosing class.

* `Nested`: the frames around a place nest this way;
* **`Stmt.nested_sites`**, …: so do those around every place of a program;
* `Site.class?`: the nearest enclosing class, **`Nested.class?_eq`**: it is the one that the words
  `this` and `super` lead to.
-/

namespace Lox

/-- The class whose scope of `this` a scope is. -/
def Region.class? : Region → Option Class
  | .this c => some c
  | _ => none

/-- The scope of `super` of some class. -/
def Region.isSuper : Region → Bool
  | .super _ => true
  | _ => false

/-- The nearest class around a place. -/
def Site.class? (p : Site) : Option Class := p.regions.findSome? Region.class?

/-- The scopes around a place: those of `super` lie around those of `this`, and no other scope binds
one of these words. -/
inductive Nested : List Frame → Prop where
  | nil : Nested []
  | plain {f frames} : f.region.class? = none → f.region.isSuper = false →
      Keyword.this.spelling ∉ f.names → Keyword.super.spelling ∉ f.names → Nested frames →
      Nested (f :: frames)
  | class {c names frames} : Keyword.this.spelling ∈ names → Keyword.super.spelling ∉ names →
      Nested frames → Nested (⟨.this c, names⟩ :: frames)
  | subclass {c names names' frames} : Keyword.this.spelling ∈ names →
      Keyword.super.spelling ∉ names → Nested frames →
      Nested (⟨.this c, names⟩ :: ⟨.super c, names'⟩ :: frames)

namespace Nested

variable {p : Site} {name : String} {frames : List Frame}

theorem start : Nested Site.start.frames :=
  .plain rfl rfl List.not_mem_nil List.not_mem_nil .nil

theorem declare (h : Nested p.frames) (hname : ∀ k : Keyword, name ≠ k.spelling) :
    Nested (p.declare name).frames := by
  cases hp : p.frames with
  | nil =>
    rw [Site.declare, hp]
    exact h
  | cons f outer =>
    rw [hp] at h
    rw [Site.declare_eq hp]
    have hkeep {names : List String} {k : Keyword} (hk : k.spelling ∉ names) :
        k.spelling ∉ name :: names := by
      rw [List.mem_cons]
      exact fun hc => hc.elim (fun hc => hname k hc.symm) hk
    cases h with
    | plain hc hs hthis hsuper hrest => exact .plain hc hs (hkeep hthis) (hkeep hsuper) hrest
    | «class» hthis hsuper hrest => exact .class (List.mem_cons_of_mem _ hthis) (hkeep hsuper) hrest
    | subclass hthis hsuper hrest =>
      exact .subclass (List.mem_cons_of_mem _ hthis) (hkeep hsuper) hrest

theorem after (h : Nested p.frames) {s : Stmt} (hs : s.Regular) : Nested (p.after s).frames := by
  cases hs with
  | var hname _ => exact h.declare hname.lexeme_ne
  | function hf =>
    cases hf with
    | mk hname _ _ => exact h.declare hname.lexeme_ne
  | «class» hc =>
    cases hc with
    | mk hname _ _ => exact h.declare hname.lexeme_ne
  | _ => exact h

theorem afterOption (h : Nested p.frames) {s : Option Stmt} (hs : ∀ t ∈ s, Stmt.Regular t) :
    Nested (p.afterOption s).frames := by
  cases s with
  | none => exact h
  | some s => exact h.after (hs s rfl)

theorem enter (h : Nested p.frames) (region : Region) (hclass : region.class? = none)
    (hsuper : region.isSuper = false) : Nested (p.enter region []).frames :=
  .plain hclass hsuper List.not_mem_nil List.not_mem_nil h

theorem enterFunction (h : Nested p.frames) (kind : FunctionKind) {f : Function}
    (hparams : ∀ t ∈ f.params, Token.Names t) : Nested (p.enterFunction kind f).frames := by
  have hfree (k : Keyword) : k.spelling ∉ f.params.map Token.lexeme := by
    rw [List.mem_map]
    rintro ⟨t, ht, hk⟩
    exact (hparams t ht).lexeme_ne k hk
  exact .plain rfl rfl (hfree .this) (hfree .super) h

theorem enterClass (h : Nested p.frames) {c : Class} (hname : c.name.Names) :
    Nested (p.enterClass c).frames := by
  have hdeclared := h.declare hname.lexeme_ne
  have hsuper : Keyword.super.spelling ∉ [Keyword.this.spelling] := by decide
  rw [Site.enterClass, Site.enterSuper]
  cases c.superclass with
  | none => exact .class List.mem_cons_self hsuper hdeclared
  | some use => exact .subclass List.mem_cons_self hsuper hdeclared

/-- No place stands in a scope of `super` without one of `this`. -/
theorem head_ne_super (h : Nested frames) {f : Frame} {outer : List Frame} (hf : frames = f :: outer)
    (c : Class) : f.region ≠ .super c := by
  intro hc
  subst hf
  cases h with
  | plain _ hs _ _ _ =>
    rw [hc] at hs
    cases hs
  | «class» _ _ _ => cases hc
  | subclass _ _ _ => cases hc

theorem not_head_super (h : Nested frames) {f : Frame} {outer : List Frame}
    (hf : frames = f :: outer) : Keyword.super.spelling ∉ f.names := by
  subst hf
  cases h with
  | plain _ _ _ hsuper _ => exact hsuper
  | «class» _ hsuper _ => exact hsuper
  | subclass _ hsuper _ => exact hsuper

/-- **The words `this` and `super` lead to the scopes of the nearest enclosing class.** -/
theorem class?_eq (h : Nested frames) {d : Nat}
    (hthis : frames.findIdx? (fun f => f.names.contains Keyword.this.spelling) = some d)
    (hsuper : frames.findIdx? (fun f => f.names.contains Keyword.super.spelling) = some (d + 1)) :
    ∃ c chain, (frames.map Frame.region).drop d = .this c :: .super c :: chain ∧
      (frames.map Frame.region).findSome? Region.class? = some c := by
  induction h generalizing d with
  | nil => cases hthis
  | @plain f frames hclass _ hno hno' _ ih =>
    rw [List.findIdx?_cons, if_neg (by rwa [List.contains_iff_mem])] at hthis hsuper
    cases d with
    | zero =>
      obtain ⟨_, _, hd⟩ := Option.map_eq_some_iff.mp hthis
      cases hd
    | succ d =>
      obtain ⟨d', hinner, hd⟩ := Option.map_eq_some_iff.mp hthis
      obtain rfl : d' = d := Nat.succ.inj hd
      obtain ⟨e, houter, he⟩ := Option.map_eq_some_iff.mp hsuper
      obtain rfl : e = d' + 1 := Nat.succ.inj he
      obtain ⟨c, chain, hdrop, hfound⟩ := ih hinner houter
      refine ⟨c, chain, hdrop, ?_⟩
      rw [List.map_cons, List.findSome?_cons, hclass]
      exact hfound
  | @«class» c names frames hmem hno hrest _ =>
    rw [List.findIdx?_cons, if_pos (List.contains_iff_mem.mpr hmem)] at hthis
    obtain rfl := Option.some.inj hthis
    -- the scope around that of `this` would have to bind `super`
    rw [List.findIdx?_cons, if_neg (by rwa [List.contains_iff_mem])] at hsuper
    obtain ⟨e, he, hd⟩ := Option.map_eq_some_iff.mp hsuper
    obtain rfl : e = 0 := Nat.succ.inj hd
    cases hframes : frames with
    | nil =>
      rw [hframes] at he
      cases he
    | cons f outer =>
      have hf := hrest.not_head_super hframes
      rw [hframes, List.findIdx?_cons, if_neg (by rwa [List.contains_iff_mem])] at he
      obtain ⟨_, _, hd⟩ := Option.map_eq_some_iff.mp he
      cases hd
  | @subclass c names names' frames hmem _ _ _ =>
    rw [List.findIdx?_cons, if_pos (List.contains_iff_mem.mpr hmem)] at hthis
    obtain rfl := Option.some.inj hthis
    exact ⟨c, frames.map Frame.region, rfl, rfl⟩

end Nested

/-! ## Programs -/

/-- The scopes around the marks nest. -/
def AllNested (sites : List (Site × Mark)) : Prop := ∀ x ∈ sites, Nested x.1.frames

namespace AllNested

variable {p : Site} {xs ys : List (Site × Mark)} {m : Mark}

theorem nil : AllNested [] := fun _ h => absurd h List.not_mem_nil

theorem cons (h : Nested p.frames) (hxs : AllNested xs) : AllNested ((p, m) :: xs) :=
  List.forall_mem_cons.mpr ⟨h, hxs⟩

theorem append (hxs : AllNested xs) (hys : AllNested ys) : AllNested (xs ++ ys) :=
  List.forall_mem_append.mpr ⟨hxs, hys⟩

theorem mark (h : Nested p.frames) (marks : List Mark) : AllNested (p.mark marks) := by
  intro x hx
  obtain ⟨_, -, rfl⟩ := List.mem_map.mp hx
  exact h

theorem expression (h : Nested p.frames) (e : Option Expr) : AllNested (Expr.sitesOption p e) := by
  cases e with
  | none => exact .nil
  | some e => exact .mark h _

theorem occurrence (h : Nested p.frames) (use : Option Occurrence) :
    AllNested (Occurrence.sitesOption p use) := by
  cases use with
  | none => exact .nil
  | some use => exact .cons h .nil

end AllNested

mutual

/-- **The scopes around every place of a statement nest.** -/
theorem Stmt.nested_sites {p : Site} (hp : Nested p.frames) :
    (s : Stmt) → s.Regular → AllNested (s.sites p)
  | .expression e, _ | .print e, _ => .cons hp (.mark hp _)
  | .var name initializer, _ => by
    rw [Stmt.sites]
    exact .cons hp (.cons hp (.expression (p := p.initializing name.lexeme) hp initializer))
  | .block body, hr => by
    cases hr with
    | block hbody =>
      rw [Stmt.sites]
      exact .cons hp (Stmt.nested_sitesAll (hp.enter _ rfl rfl) body hbody)
  | .ifElse condition thenBranch elseBranch, hr => by
    cases hr with
    | ifElse _ hthen _ helse _ =>
      rw [Stmt.sites]
      exact .cons hp (.append (.append (.mark hp _) (thenBranch.nested_sites hp hthen))
        (Stmt.nested_sitesOption hp elseBranch helse))
  | .whileLoop condition body, hr => by
    cases hr with
    | whileLoop _ hbody _ =>
      rw [Stmt.sites]
      exact .cons hp (.append (.mark hp _) (body.nested_sites (p := p.enterLoop) hp hbody))
  | .forLoop initializer condition increment body, hr => by
    cases hr with
    | forLoop hinit _ _ _ hbody _ =>
      have hinner := hp.enter (.clauses initializer condition increment body) rfl rfl
      have hbehind := hinner.afterOption hinit
      rw [Stmt.sites]
      exact .cons hp (.append (.append (.append (Stmt.nested_sitesOption hinner initializer hinit)
        (.expression hbehind condition)) (.expression hbehind increment))
        (body.nested_sites (p := ((p.enter _ []).afterOption initializer).enterLoop) hbehind hbody))
  | .function declaration, hr => by
    cases hr with
    | function hf =>
      rw [Stmt.sites]
      exact .cons hp (.cons hp (declaration.nested_sites .function
        (hp.after (s := .function declaration) (.function hf)) hf))
  | .class declaration, hr => by
    cases hr with
    | «class» hc =>
      rw [Stmt.sites]
      exact .cons hp (declaration.nested_sites hp hc)
  | .return _ value, _ => .cons hp (.cons hp (.expression hp value))
  | .break _, _ | .continue _, _ => .cons hp (.cons hp .nil)

theorem Stmt.nested_sitesAll {p : Site} (hp : Nested p.frames) :
    (ss : List Stmt) → (∀ s ∈ ss, s.Regular) → AllNested (Stmt.sitesAll p ss)
  | [], _ => .nil
  | s :: rest, hr => by
    obtain ⟨hs, hrest⟩ := List.forall_mem_cons.mp hr
    rw [Stmt.sitesAll]
    exact .append (s.nested_sites hp hs) (Stmt.nested_sitesAll (hp.after hs) rest hrest)

theorem Stmt.nested_sitesOption {p : Site} (hp : Nested p.frames) :
    (s : Option Stmt) → (∀ t ∈ s, Stmt.Regular t) → AllNested (Stmt.sitesOption p s)
  | none, _ => .nil
  | some s, hr => s.nested_sites hp (hr s rfl)

theorem Function.nested_sites (kind : FunctionKind) {p : Site} (hp : Nested p.frames) :
    (f : Function) → f.Regular → AllNested (f.sites kind p)
  | ⟨name, params, body, span⟩, hr => by
    cases hr with
    | mk _ hparams hbody =>
      have hinner := hp.enterFunction kind (f := ⟨name, params, body, span⟩) hparams
      rw [Function.sites]
      exact .append (.mark hinner _) (Stmt.nested_sitesAll hinner body hbody)

theorem Function.nested_sitesMethods {p : Site} (hp : Nested p.frames) :
    (fs : List Function) → (∀ f ∈ fs, f.Regular) → AllNested (Function.sitesMethods p fs)
  | [], _ => .nil
  | f :: rest, hr => by
    obtain ⟨hf, hrest⟩ := List.forall_mem_cons.mp hr
    rw [Function.sitesMethods]
    exact .append (f.nested_sites f.methodKind hp hf) (Function.nested_sitesMethods hp rest hrest)

theorem Class.nested_sites {p : Site} (hp : Nested p.frames) :
    (c : Class) → c.Regular → AllNested (c.sites p)
  | ⟨name, superclass, methods, span⟩, hr => by
    cases hr with
    | mk hname _ hmethods =>
      rw [Class.sites]
      exact .cons hp (.append (.occurrence hp superclass) (Function.nested_sitesMethods
        (hp.enterClass (c := ⟨name, superclass, methods, span⟩) hname) methods hmethods))

end

end Lox
