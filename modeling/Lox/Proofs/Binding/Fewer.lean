import Mathlib.Data.List.Forall2
import Lox.Proofs.Binding.Legal
import Lox.Proofs.Syntax.Relocation

/-!
# A program where fewer names are declared

A program without static errors has none either where fewer names are declared in the scopes around
it, wherever its tokens stand.

* `ScopeNames.Within`: a scope has all names of another one, `Context.Within`: so do all open scopes;
* `Expr.within_resolve`, `Stmt.within_resolve`, …: the resolver keeps to that;
* **`noError_of_append`**: the second part of a program without static errors has none alone.
-/

namespace Lox

/-! ## Scopes and contexts -/

/-- A scope has all names of another one, and those that are being initialized are so in both. -/
def ScopeNames.Within (scope scope' : ScopeNames) : Prop :=
  ∀ name b, scope.get? name = some b →
    ∃ b', scope'.get? name = some b' ∧ (b = .uninitialized → b' = .uninitialized)

namespace ScopeNames.Within

variable {scope scope' : ScopeNames}

theorem empty (scope' : ScopeNames) : ScopeNames.Within .empty scope' := by
  intro name b h
  rw [Bindings.get?_empty] at h
  cases h

theorem insert (h : scope.Within scope') (name : String) {b b' : Binding}
    (hb : b = .uninitialized → b' = .uninitialized) :
    ScopeNames.Within (scope.insert name b) (scope'.insert name b') := by
  intro other x hx
  rw [Bindings.get?_insert] at hx ⊢
  by_cases he : name = other
  · rw [if_pos he] at hx ⊢
    cases hx
    exact ⟨b', rfl, hb⟩
  · rw [if_neg he] at hx ⊢
    exact h other x hx

end ScopeNames.Within

namespace Context

/-- The open scopes of `c'` have all names of those of `c`, around both lie the same function, class
and loops, and if nothing was noted in `c'`, nothing was in `c`. -/
structure Within (c c' : Context) : Prop where
  scopes : List.Forall₂ ScopeNames.Within c.scopes c'.scopes
  function : c'.function = c.function
  classKind : c'.classKind = c.classKind
  loopDepth : c'.loopDepth = c.loopDepth
  quiet : c'.complaints = [] → c.complaints = []

namespace Within

variable {c c' c₁ c₁' : Context} (r : Relocation)

theorem innermost? (h : c.Within c') {name : String} {b : Binding}
    (hb : c.innermost? name = some b) :
    ∃ b', c'.innermost? name = some b' ∧ (b = .uninitialized → b' = .uninitialized) := by
  have hs := h.scopes
  unfold Context.innermost? at hb ⊢
  revert hs hb
  generalize c.scopes = scopes
  generalize c'.scopes = scopes'
  rintro hb (_ | ⟨hscope, _⟩)
  · cases hb
  · exact hscope name b hb

/-- What breaks a rule in the one context breaks it in the other one. -/
theorem check (h : c.Within c') {broken broken' : Bool} (hb : broken = true → broken' = true)
    (problem problem' : StaticProblem) (place place' : Token) :
    (c.check broken problem place).Within (c'.check broken' problem' place') := by
  cases broken' with
  | true =>
    have hnoted : (c'.check true problem' place').complaints ≠ [] := List.cons_ne_nil _ _
    cases broken <;>
      exact ⟨h.scopes, h.function, h.classKind, h.loopDepth, fun hq => absurd hq hnoted⟩
  | false =>
    cases broken with
    | true => exact absurd (hb rfl) Bool.false_ne_true
    | false => exact h

theorem complain (h : c.Within c') (problem problem' : StaticProblem) (place place' : Token) :
    (c.complain problem place).Within (c'.complain problem' place') :=
  h.check (id : true = true → true = true) problem problem' place place'

theorem alike (h : c.Within c') (hc : Alike c c₁) (hc' : Alike c' c₁')
    (hq : c₁.complaints = c.complaints) (hq' : c₁'.complaints = c'.complaints) :
    c₁.Within c₁' where
  scopes := by rw [hc.scopes, hc'.scopes]; exact h.scopes
  function := hc'.function.trans (h.function.trans hc.function.symm)
  classKind := hc'.classKind.trans (h.classKind.trans hc.classKind.symm)
  loopDepth := hc'.loopDepth.trans (h.loopDepth.trans hc.loopDepth.symm)
  quiet := by rw [hq, hq']; exact h.quiet

theorem use (h : c.Within c') (use use' : Occurrence) : (c.use use).Within (c'.use use') :=
  h.alike (alike_use use) (alike_use use') (use_complaints use) (use_complaints use')

theorem bind (h : c.Within c') (name : String) {b b' : Binding}
    (hb : b = .uninitialized → b' = .uninitialized) : (c.bind name b).Within (c'.bind name b') := by
  have hs := h.scopes
  unfold Context.bind
  cases hc : c.scopes with
  | nil =>
    rw [hc, List.forall₂_nil_left_iff] at hs
    rw [hs]
    exact h
  | cons scope outer =>
    rw [hc] at hs
    cases hc' : c'.scopes with
    | nil =>
      rw [hc'] at hs
      cases hs
    | cons scope' outer' =>
      rw [hc'] at hs
      cases hs with
      | cons hscope houter =>
        exact ⟨.cons (hscope.insert name hb) houter, h.function, h.classKind, h.loopDepth, h.quiet⟩

theorem declare (h : c.Within c') (name : Token) :
    (c.declare name).Within (c'.declare (name.relocate r)) := by
  refine (h.check (fun hb => ?_) _ _ _ _).bind _ fun _ => rfl
  obtain ⟨b, hb⟩ := Option.isSome_iff_exists.mp hb
  obtain ⟨b', hb', -⟩ := h.innermost? hb
  exact Option.isSome_iff_exists.mpr ⟨b', hb'⟩

theorem define (h : c.Within c') (name : Token) (kind : SymbolKind) :
    (c.define name kind).Within (c'.define (name.relocate r) kind) := by
  have hb : (c.bind name.lexeme (.declared name.id)).Within
      (c'.bind name.lexeme (.declared (r.id name.id))) := h.bind name.lexeme nofun
  rw [define_eq_bind, define_eq_bind (c := c')]
  exact ⟨hb.scopes, hb.function, hb.classKind, hb.loopDepth, hb.quiet⟩

theorem openScope (h : c.Within c') : c.openScope.Within c'.openScope :=
  ⟨.cons (.empty _) h.scopes, h.function, h.classKind, h.loopDepth, h.quiet⟩

theorem closeScope (h : c.Within c') : c.closeScope.Within c'.closeScope := by
  refine ⟨?_, h.function, h.classKind, h.loopDepth, h.quiet⟩
  show List.Forall₂ _ c.scopes.tail c'.scopes.tail
  have hs := h.scopes
  revert hs
  generalize c.scopes = scopes
  generalize c'.scopes = scopes'
  rintro (_ | ⟨_, houter⟩)
  · exact .nil
  · exact houter

theorem enterLoop (h : c.Within c') : c.enterLoop.Within c'.enterLoop :=
  ⟨h.scopes, h.function, h.classKind, congrArg (· + 1) h.loopDepth, h.quiet⟩

theorem leaveLoop (h : c.Within c') : c.leaveLoop.Within c'.leaveLoop :=
  ⟨h.scopes, h.function, h.classKind, congrArg (· - 1) h.loopDepth, h.quiet⟩

theorem enterFunction (h : c.Within c') (kind : FunctionKind) :
    (c.enterFunction kind).Within (c'.enterFunction kind) :=
  ⟨h.openScope.scopes, rfl, h.classKind, rfl, h.quiet⟩

theorem leaveFunction (h : c.Within c') (hout : c₁.Within c₁') :
    (c.leaveFunction c₁).Within (c'.leaveFunction c₁') :=
  ⟨h.closeScope.scopes, hout.function, h.classKind, hout.loopDepth, h.quiet⟩

theorem withKind (h : c.Within c') (kind : ClassKind) :
    ({ c with classKind := kind } : Context).Within { c' with classKind := kind } :=
  ⟨h.scopes, h.function, rfl, h.loopDepth, h.quiet⟩

theorem parameters (h : c.Within c') (params : List Token) :
    (params.foldl Context.parameter c).Within
      ((params.map (Token.relocate r)).foldl Context.parameter c') := by
  induction params generalizing c c' with
  | nil => exact h
  | cons param params ih => exact ih ((h.declare r param).define r param .parameter)

end Within

end Context

/-! ## Expressions -/

open Context

variable (r : Relocation)

theorem Expr.within_variable {c c' : Context} (h : c.Within c') (use : Occurrence) :
    ((Expr.variable use).resolve c).Within ((Expr.variable (use.relocate r)).resolve c') := by
  refine (h.check (fun hb => ?_) _ _ _ _).use _ _
  obtain ⟨b', hb', hun⟩ := h.innermost? (beq_iff_eq.mp hb)
  exact beq_iff_eq.mpr (hb'.trans (congrArg some (hun rfl)))

mutual

theorem Expr.within_resolve {c c' : Context} (h : c.Within c') :
    (e : Expr) → (e.resolve c).Within ((e.relocate r).resolve c')
  | .literal _ => h
  | .grouping inner => inner.within_resolve h
  | .unary _ _ operand => operand.within_resolve h
  | .binary left _ _ right => right.within_resolve (left.within_resolve h)
  | .logical left _ _ right => right.within_resolve (left.within_resolve h)
  | .variable use => Expr.within_variable r h use
  | .assign target value => (value.within_resolve h).use _ _
  | .call callee arguments _ => Expr.within_resolveAll (callee.within_resolve h) arguments
  | .get object _ => object.within_resolve h
  | .set object _ value => value.within_resolve (object.within_resolve h)
  | .this keyword => by
    rw [Expr.relocate, Expr.resolve, Expr.resolve, h.classKind]
    split
    · exact h.complain _ _ _ _
    · exact h.use _ _
  | .super keyword _ => by
    rw [Expr.relocate, Expr.resolve, Expr.resolve, h.classKind]
    split
    · exact h.complain _ _ _ _
    · exact h.complain _ _ _ _
    · exact h.use _ _

theorem Expr.within_resolveAll {c c' : Context} (h : c.Within c') :
    (es : List Expr) → (Expr.resolveAll c es).Within (Expr.resolveAll c' (Expr.relocateAll r es))
  | [] => h
  | e :: rest => Expr.within_resolveAll (e.within_resolve h) rest

end

theorem Expr.within_resolveOption {c c' : Context} (h : c.Within c') (e : Option Expr) :
    (Expr.resolveOption c e).Within (Expr.resolveOption c' (e.map (Expr.relocate r))) := by
  cases e with
  | none => exact h
  | some e => exact e.within_resolve r h

/-! ## Statements -/

theorem Context.Within.enterClass {c c' : Context} (h : c.Within c') (name : Token)
    (superclass : Option Occurrence) :
    (c.enterClass name superclass).Within
      (c'.enterClass (name.relocate r) (superclass.map (Occurrence.relocate r))) := by
  have hname := ((h.withKind .plain).declare r name).define r name .class
  cases superclass with
  | none => exact hname.openScope.bind _ id
  | some use =>
    have hself := hname.check (id : (use.name.lexeme == name.lexeme) = true → _)
      .inheritsFromItself .inheritsFromItself use.name (use.name.relocate r)
    have hsuper := (Expr.within_variable r (hself.withKind .subclass) use).openScope.bind
      Keyword.super.spelling (id : Binding.implicit = .uninitialized → _)
    exact hsuper.openScope.bind _ id

theorem Context.Within.leaveClass {c c' c₁ c₁' : Context} (h : c.Within c') (hout : c₁.Within c₁')
    (superclass : Option Occurrence) :
    (c.leaveClass superclass c₁).Within
      (c'.leaveClass (superclass.map (Occurrence.relocate r)) c₁') := by
  cases superclass with
  | none =>
    exact ⟨h.closeScope.scopes, h.function, hout.classKind, h.loopDepth, h.quiet⟩
  | some use =>
    exact ⟨h.closeScope.closeScope.scopes, h.function, hout.classKind, h.loopDepth, h.quiet⟩

mutual

theorem Stmt.within_resolve {c c' : Context} (h : c.Within c') :
    (s : Stmt) → (s.resolve c).Within ((s.relocate r).resolve c')
  | .expression e => e.within_resolve r h
  | .print e => e.within_resolve r h
  | .var name initializer =>
    (Expr.within_resolveOption r (h.declare r name) initializer).define r name .variable
  | .block body => (Stmt.within_resolveAll h.openScope body).closeScope
  | .ifElse condition thenBranch elseBranch =>
    Stmt.within_resolveOption (thenBranch.within_resolve (condition.within_resolve r h)) elseBranch
  | .whileLoop condition body =>
    (body.within_resolve (condition.within_resolve r h).enterLoop).leaveLoop
  | .forLoop initializer condition increment body =>
    (body.within_resolve (Expr.within_resolveOption r (Expr.within_resolveOption r
      (Stmt.within_resolveOption h.openScope initializer) condition) increment).enterLoop).leaveLoop.closeScope
  | .function declaration => by
    rw [Stmt.relocate, Stmt.resolve, Stmt.resolve, Function.name_relocate]
    exact declaration.within_resolve .function
      ((h.declare r declaration.name).define r declaration.name .function)
  | .class declaration => declaration.within_resolve h
  | .return keyword value => by
    have houtside : (c.function == .none) = true → (c'.function == .none) = true := by
      rw [h.function]
      exact id
    have h₁ := h.check houtside .returnOutsideFunction .returnOutsideFunction keyword
      (keyword.relocate r)
    refine Expr.within_resolveOption r (h₁.check (fun hb => ?_) _ _ _ _) value
    rw [Option.isSome_map, h₁.function]
    exact hb
  | .break keyword => h.check (by rw [h.loopDepth]; exact id) _ _ _ _
  | .continue keyword => h.check (by rw [h.loopDepth]; exact id) _ _ _ _

theorem Stmt.within_resolveAll {c c' : Context} (h : c.Within c') :
    (ss : List Stmt) → (Stmt.resolveAll c ss).Within (Stmt.resolveAll c' (Stmt.relocateAll r ss))
  | [] => h
  | s :: rest => Stmt.within_resolveAll (s.within_resolve h) rest

theorem Stmt.within_resolveOption {c c' : Context} (h : c.Within c') :
    (s : Option Stmt) →
      (Stmt.resolveOption c s).Within (Stmt.resolveOption c' (Stmt.relocateOption r s))
  | none => h
  | some s => s.within_resolve h

theorem Function.within_resolve (kind : FunctionKind) {c c' : Context} (h : c.Within c') :
    (f : Function) → (f.resolve kind c).Within ((f.relocate r).resolve kind c')
  | ⟨_, params, body, _⟩ =>
    (Stmt.within_resolveAll ((h.enterFunction kind).parameters r params) body).leaveFunction h

theorem Function.within_resolveMethods {c c' : Context} (h : c.Within c') :
    (fs : List Function) →
      (Function.resolveMethods c fs).Within (Function.resolveMethods c' (Function.relocateAll r fs))
  | [] => h
  | f :: rest => by
    have hkind : (f.relocate r).methodKind = f.methodKind := by
      rw [Function.methodKind, Function.isInitializer_relocate, Function.methodKind]
    rw [Function.relocateAll, Function.resolveMethods, Function.resolveMethods, hkind]
    exact Function.within_resolveMethods (f.within_resolve f.methodKind h) rest

theorem Class.within_resolve {c c' : Context} (h : c.Within c') :
    (k : Class) → (k.resolve c).Within ((k.relocate r).resolve c')
  | ⟨name, superclass, methods, _⟩ =>
    (Function.within_resolveMethods (h.enterClass r name superclass) methods).leaveClass r h superclass

end

/-! ## Programs -/

theorem Stmt.resolveAll_append (c : Context) (ss ts : List Stmt) :
    Stmt.resolveAll c (ss ++ ts) = Stmt.resolveAll (Stmt.resolveAll c ss) ts := by
  induction ss generalizing c with
  | nil => rfl
  | cons s rest ih => exact ih (s.resolve c)

/-- Where the resolver notes nothing on its walk, no static rule is broken. -/
theorem noError_of_quiet {program : List Stmt}
    (h : (Stmt.resolveAll .start program).complaints = []) : (resolve program).hasError = false := by
  have hwarning : ∀ x ∈ Resolution.unusedComplaints (Stmt.resolveAll .start program).symbols,
      x.isError = false := by
    intro x hx
    obtain ⟨d, -, rfl⟩ := List.mem_map.mp hx
    rfl
  rw [Resolution.hasError, resolve, h, List.reverse_nil, List.nil_append, List.any_eq_false]
  exact fun x hx => by rw [hwarning x hx]; exact Bool.false_ne_true

theorem within_behind {program : List Stmt} (hr : ∀ s ∈ program, s.Regular)
    (hn : (Stmt.idsAll program).Nodup) (hq : (Stmt.resolveAll .start program).complaints = []) :
    start.Within (Stmt.resolveAll .start program) := by
  have hs := (Stmt.recorded_resolveAll program hr settled_start ⟨hn, fun _ _ => rfl⟩ hq).1
  have hb := Site.behind_afterAll (p := .start) program
  obtain ⟨scope, outer, f, rest, hscopes, hframes, -, houter⟩ := hs.scopes.cons_inv
  have hrest : rest = [] := by
    have htail := hb.outer
    rw [hframes] at htail
    exact htail
  rw [hrest] at houter
  cases houter with
  | nil =>
    refine ⟨?_, hs.function.trans hb.function, hs.classKind.trans hb.classKind,
      hs.loopDepth.trans hb.loopDepth, fun _ => rfl⟩
    rw [hscopes]
    exact .cons (.empty scope) .nil
  | some h => cases h

/-- **The second part of a program without static errors has none alone.** -/
theorem noError_of_append {first second : List Stmt} (hr : ∀ s ∈ first, s.Regular)
    (hn : (Stmt.idsAll first).Nodup)
    (h : (resolve (first ++ Stmt.relocateAll r second)).hasError = false) :
    (resolve second).hasError = false := by
  have hq := complaints_of_resolve h
  rw [Stmt.resolveAll_append] at hq
  have hfirst := (Stmt.grows_resolveAll _ _).quiet hq
  exact noError_of_quiet ((Stmt.within_resolveAll r (within_behind hr hn hfirst) second).quiet hq)

end Lox
