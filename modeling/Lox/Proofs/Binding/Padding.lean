import Lox.Proofs.Binding.Fewer
import Lox.Proofs.Binding.Legal
import Lox.Proofs.Binding.Scoping
import Lox.Proofs.Syntax.Lowering

/-!
# The static rules and the while form

The while form of a `for` statement has a scope more around the body of its loop. Nothing is ever
declared in that scope, so the resolver finds the same problems: none.

* `Padded`: a list with further elements put in, `Shifts`: how far they move an element;
* `Padded.findIdx?`: what is found in such a list;
* `Context.Pads`: what is known at a place of a program and of the program in its while form;
* `Expr.quiet_resolve`: an expression has no problem where fewer names are being initialized;
* **`Stmt.Lowers.pads`**: the resolver goes over both programs in step;
* **`hasError_of_lowers`**: so the while form of a program without static problems has none.
-/

namespace Lox

/-! ## Lists with further elements -/

section Lists

variable {α β : Type} {R : α → β → Prop} {Blank : β → Prop}

theorem rel_map {γ δ : Type} {S : γ → δ → Prop} {f : α → γ} {g : β → δ} {a : Option α}
    {b : Option β} (h : Option.Rel R a b) (hf : ∀ x y, R x y → S (f x) (g y)) :
    Option.Rel S (a.map f) (b.map g) := by
  cases h with
  | none => exact .none
  | some hxy => exact .some (hf _ _ hxy)

/-- The elements of the second list stand to those of the first one, but for blank elements: as many
in front of each element as `pads` says. -/
inductive Padded (R : α → β → Prop) (Blank : β → Prop) : List Nat → List α → List β → Prop where
  | nil : Padded R Blank [] [] []
  | cons {a b pads l l'} : R a b → Padded R Blank pads l l' →
      Padded R Blank (0 :: pads) (a :: l) (b :: l')
  | pad {b n pads l l'} : Blank b → Padded R Blank (n :: pads) l l' →
      Padded R Blank ((n + 1) :: pads) l (b :: l')

/-- The element at the first place stands at the second place when the list is padded. -/
inductive Shifts : List Nat → Nat → Nat → Prop where
  | here {pads} : Shifts (0 :: pads) 0 0
  | out {pads d d'} : Shifts pads d d' → Shifts (0 :: pads) (d + 1) (d' + 1)
  | pad {n pads d d'} : Shifts (n :: pads) d d' → Shifts ((n + 1) :: pads) d (d' + 1)

namespace Padded

variable {pads : List Nat} {l : List α} {l' : List β}

theorem cons_inv (h : Padded R Blank (0 :: pads) l l') :
    ∃ a b rest rest', l = a :: rest ∧ l' = b :: rest' ∧ R a b ∧ Padded R Blank pads rest rest' := by
  cases h with
  | cons hab h => exact ⟨_, _, _, _, rfl, rfl, hab, h⟩

theorem pad_inv {n : Nat} (h : Padded R Blank ((n + 1) :: pads) l l') :
    ∃ b rest, l' = b :: rest ∧ Blank b ∧ Padded R Blank (n :: pads) l rest := by
  cases h with
  | pad hb h => exact ⟨_, _, rfl, hb, h⟩

/-- What no blank element has is found where the list was padded. -/
theorem findIdx? {p : α → Bool} {q : β → Bool} (hR : ∀ a b, R a b → q b = p a)
    (hBlank : ∀ b, Blank b → q b = false) (h : Padded R Blank pads l l') :
    Option.Rel (Shifts pads) (l.findIdx? p) (l'.findIdx? q) := by
  induction h with
  | nil => exact .none
  | @cons a b pads l l' hab h ih =>
    rw [List.findIdx?_cons, List.findIdx?_cons, hR a b hab]
    cases p a with
    | true => exact .some .here
    | false => exact rel_map ih fun _ _ => .out
  | @pad b n pads l l' hb h ih =>
    rw [List.findIdx?_cons, hBlank b hb, ← @Option.map_id' _ (List.findIdx? p l)]
    exact rel_map ih fun _ _ => .pad

end Padded

end Lists

/-- The padding of the scopes around the methods of a class, for those around the class: `this` has
a scope, and `super` if there is a superclass. -/
def classPads (superclass : Option Occurrence) (pads : List Nat) : List Nat :=
  match superclass with
  | none => 0 :: pads
  | some _ => 0 :: 0 :: pads

/-! ## Places of the resolver -/

namespace Context

/-- What is known at the same place of both programs: the scopes are those of the first one, but for
scopes in which nothing is declared. No problem was noted in the second one. -/
structure Pads (pads : List Nat) (c c' : Context) : Prop where
  scopes : Padded Eq (· = .empty) pads c.scopes c'.scopes
  function : c'.function = c.function
  classKind : c'.classKind = c.classKind
  loopDepth : c'.loopDepth = c.loopDepth
  quiet : c'.complaints = []

/-- An expression without a problem in the first context has none in the second one either. -/
structure Spares (c c' : Context) : Prop where
  classKind : c'.classKind = c.classKind
  reading : ∀ name, c'.innermost? name = some .uninitialized →
    c.innermost? name = some .uninitialized

variable {c c' c₁ c₁' : Context} {pads : List Nat}

theorem Spares.alike (h : Spares c c') (ha : Alike c c₁) (ha' : Alike c' c₁') : Spares c₁ c₁' where
  classKind := ha'.classKind.trans (h.classKind.trans ha.classKind.symm)
  reading := fun name hu => by
    rw [innermost?, ha.scopes]
    rw [innermost?, ha'.scopes] at hu
    exact h.reading name hu

namespace Pads

theorem spares (h : Pads pads c c') : Spares c c' where
  classKind := h.classKind
  reading := fun name hu => by
    unfold innermost? at hu ⊢
    obtain ⟨hs, -⟩ := h
    generalize c.scopes = l, c'.scopes = l' at hs hu
    cases hs with
    | nil => cases hu
    | cons hab _ => exact hab ▸ hu
    | pad hb _ => rw [List.head?_cons, hb] at hu; cases hu

theorem alike (h : Pads pads c c') (ha : Alike c c₁) (ha' : Alike c' c₁')
    (hq : c₁'.complaints = []) : Pads pads c₁ c₁' where
  scopes := ha.scopes ▸ ha'.scopes ▸ h.scopes
  function := ha'.function.trans (h.function.trans ha.function.symm)
  classKind := ha'.classKind.trans (h.classKind.trans ha.classKind.symm)
  loopDepth := ha'.loopDepth.trans (h.loopDepth.trans ha.loopDepth.symm)
  quiet := hq

theorem openScope (h : Pads pads c c') : Pads (0 :: pads) c.openScope c'.openScope :=
  ⟨.cons rfl h.scopes, h.function, h.classKind, h.loopDepth, h.quiet⟩

theorem closeScope (h : Pads (0 :: pads) c c') : Pads pads c.closeScope c'.closeScope where
  scopes := by
    obtain ⟨s, s', outer, outer', hs, hs', -, ho⟩ := h.scopes.cons_inv
    show Padded _ _ _ c.scopes.tail c'.scopes.tail
    rw [hs, hs']
    exact ho
  function := h.function
  classKind := h.classKind
  loopDepth := h.loopDepth
  quiet := h.quiet

theorem openPad {n : Nat} (h : Pads (n :: pads) c c') : Pads ((n + 1) :: pads) c c'.openScope :=
  ⟨.pad rfl h.scopes, h.function, h.classKind, h.loopDepth, h.quiet⟩

theorem closePad {n : Nat} (h : Pads ((n + 1) :: pads) c c') :
    Pads (n :: pads) c c'.closeScope where
  scopes := by
    obtain ⟨s', outer', hs', -, ho⟩ := h.scopes.pad_inv
    show Padded _ _ _ c.scopes c'.scopes.tail
    rw [hs']
    exact ho
  function := h.function
  classKind := h.classKind
  loopDepth := h.loopDepth
  quiet := h.quiet

theorem enterLoop (h : Pads pads c c') : Pads pads c.enterLoop c'.enterLoop :=
  ⟨h.scopes, h.function, h.classKind, congrArg (· + 1) h.loopDepth, h.quiet⟩

theorem leaveLoop (h : Pads pads c c') : Pads pads c.leaveLoop c'.leaveLoop :=
  ⟨h.scopes, h.function, h.classKind, congrArg (· - 1) h.loopDepth, h.quiet⟩

theorem enterFunction (h : Pads pads c c') (kind : FunctionKind) :
    Pads (0 :: pads) (c.enterFunction kind) (c'.enterFunction kind) :=
  ⟨h.openScope.scopes, rfl, h.classKind, rfl, h.quiet⟩

theorem leaveFunction (h : Pads (0 :: pads) c₁ c₁') (houter : Pads pads c c') :
    Pads pads (c₁.leaveFunction c) (c₁'.leaveFunction c') :=
  ⟨h.closeScope.scopes, houter.function, h.classKind, houter.loopDepth, h.quiet⟩

theorem withClassKind (h : Pads pads c c') (kind : ClassKind) :
    Pads pads { c with classKind := kind } { c' with classKind := kind } :=
  ⟨h.scopes, h.function, rfl, h.loopDepth, h.quiet⟩

theorem check (h : Pads pads c c') {broken broken' : Bool} (hb : broken' = broken)
    {problem : StaticProblem} {place : Token}
    (hq : (c.check broken problem place).complaints = []) :
    Pads pads (c.check broken problem place) (c'.check broken' problem place) := by
  rw [hb, check_complaints hq]
  exact h

theorem bind (h : Pads (0 :: pads) c c') (name : String) (binding : Binding) :
    Pads (0 :: pads) (c.bind name binding) (c'.bind name binding) := by
  obtain ⟨s, s', outer, outer', hs, hs', rfl, ho⟩ := h.scopes.cons_inv
  rw [bind_eq hs, bind_eq hs']
  exact ⟨.cons rfl ho, h.function, h.classKind, h.loopDepth, h.quiet⟩

theorem declare (h : Pads (0 :: pads) c c') {name : Token}
    (hq : (c.declare name).complaints = []) :
    Pads (0 :: pads) (c.declare name) (c'.declare name) := by
  have hinner : c'.innermost? name.lexeme = c.innermost? name.lexeme := by
    obtain ⟨s, s', outer, outer', hs, hs', rfl, -⟩ := h.scopes.cons_inv
    rw [innermost?, innermost?, hs, hs']
    rfl
  refine (h.check ?_ ((grows_bind _ _).quiet hq)).bind _ _
  rw [hinner]

theorem define (h : Pads (0 :: pads) c c') (name : Token) (kind : SymbolKind) :
    Pads (0 :: pads) (c.define name kind) (c'.define name kind) := by
  have hb := h.bind name.lexeme (.declared name.id)
  rw [define_eq_bind, define_eq_bind (c := c')]
  exact ⟨hb.scopes, hb.function, hb.classKind, hb.loopDepth, hb.quiet⟩

theorem parameters (params : List Token) (h : Pads (0 :: pads) c c')
    (hq : (params.foldl parameter c).complaints = []) :
    Pads (0 :: pads) (params.foldl parameter c) (params.foldl parameter c') := by
  induction params generalizing c c' with
  | nil => exact h
  | cons t rest ih =>
    rw [List.foldl_cons] at hq
    have hq' := (grows_parameters rest _).quiet hq
    exact ih ((h.declare ((grows_define t .parameter).quiet hq')).define t .parameter) hq

end Pads

end Context

/-! ## Expressions -/

open Context

mutual

theorem Expr.quiet_resolve {c c' : Context} (h : c.Spares c') (hq' : c'.complaints = []) :
    (e : Expr) → (e.resolve c).complaints = [] → (e.resolve c').complaints = []
  | .literal _, _ => hq'
  | .grouping inner, hq => inner.quiet_resolve h hq' hq
  | .unary _ _ operand, hq => operand.quiet_resolve h hq' hq
  | .binary left _ _ right, hq =>
    right.quiet_resolve (h.alike (left.alike_resolve c) (left.alike_resolve c'))
      (left.quiet_resolve h hq' ((right.grows_resolve _).quiet hq)) hq
  | .logical left _ _ right, hq =>
    right.quiet_resolve (h.alike (left.alike_resolve c) (left.alike_resolve c'))
      (left.quiet_resolve h hq' ((right.grows_resolve _).quiet hq)) hq
  | .variable use, hq => by
    have hread := check_complaints ((grows_use use).quiet hq)
    have hread' : (c'.innermost? use.name.lexeme == some .uninitialized) = false := by
      rw [beq_eq_false_iff_ne, ne_eq] at hread ⊢
      exact fun hu => hread (h.reading _ hu)
    rw [Expr.resolve, use_complaints, hread', check_false]
    exact hq'
  | .assign target value, hq => by
    rw [Expr.resolve, use_complaints] at hq ⊢
    exact value.quiet_resolve h hq' hq
  | .call callee arguments _, hq =>
    Expr.quiet_resolveAll (h.alike (callee.alike_resolve c) (callee.alike_resolve c'))
      (callee.quiet_resolve h hq' ((Expr.grows_resolveAll _ arguments).quiet hq)) arguments hq
  | .get object _, hq => object.quiet_resolve h hq' hq
  | .set object _ value, hq =>
    value.quiet_resolve (h.alike (object.alike_resolve c) (object.alike_resolve c'))
      (object.quiet_resolve h hq' ((value.grows_resolve _).quiet hq)) hq
  | .this keyword, hq => by
    rw [Expr.resolve, h.classKind]
    rw [Expr.resolve] at hq
    cases hk : c.classKind with
    | none =>
      rw [hk] at hq
      exact absurd hq (List.cons_ne_nil _ _)
    | plain | subclass => exact (use_complaints keyword).trans hq'
  | .super keyword _, hq => by
    rw [Expr.resolve, h.classKind]
    rw [Expr.resolve] at hq
    cases hk : c.classKind with
    | none | plain =>
      rw [hk] at hq
      exact absurd hq (List.cons_ne_nil _ _)
    | subclass => exact (use_complaints keyword).trans hq'

theorem Expr.quiet_resolveAll {c c' : Context} (h : c.Spares c') (hq' : c'.complaints = []) :
    (es : List Expr) → (Expr.resolveAll c es).complaints = [] →
      (Expr.resolveAll c' es).complaints = []
  | [], _ => hq'
  | e :: rest, hq =>
    Expr.quiet_resolveAll (h.alike (e.alike_resolve c) (e.alike_resolve c'))
      (e.quiet_resolve h hq' ((Expr.grows_resolveAll _ rest).quiet hq)) rest hq

end

theorem Expr.quiet_resolveOption {c c' : Context} (h : c.Spares c') (hq' : c'.complaints = [])
    (e : Option Expr) (hq : (Expr.resolveOption c e).complaints = []) :
    (Expr.resolveOption c' e).complaints = [] := by
  cases e with
  | none => exact hq'
  | some e => exact e.quiet_resolve h hq' hq

/-! ## Statements -/

theorem Context.parameters_classKind (params : List Token) (c : Context) :
    (params.foldl parameter c).classKind = c.classKind := by
  induction params generalizing c with
  | nil => rfl
  | cons t rest ih =>
    exact (ih _).trans ((define_classKind t .parameter).trans (declare_classKind t))

mutual

theorem Stmt.classKind_resolve (c : Context) : (s : Stmt) → (s.resolve c).classKind = c.classKind
  | .expression e | .print e => (e.alike_resolve c).classKind
  | .var name initializer =>
    (define_classKind name .variable).trans
      ((Expr.alike_resolveOption _ initializer).classKind.trans (declare_classKind name))
  | .block body => Stmt.classKind_resolveAll c.openScope body
  | .ifElse condition thenBranch elseBranch =>
    (Stmt.classKind_resolveOption _ elseBranch).trans
      ((thenBranch.classKind_resolve _).trans (condition.alike_resolve c).classKind)
  | .whileLoop condition body =>
    (body.classKind_resolve (condition.resolve c).enterLoop).trans
      (condition.alike_resolve c).classKind
  | .forLoop initializer condition increment body => by
    refine (body.classKind_resolve (Context.enterLoop _)).trans ?_
    exact (Expr.alike_resolveOption _ increment).classKind.trans
      ((Expr.alike_resolveOption _ condition).classKind.trans
        (Stmt.classKind_resolveOption c.openScope initializer))
  | .function declaration =>
    (declaration.classKind_resolve .function _).trans
      ((define_classKind _ .function).trans (declare_classKind _))
  | .class ⟨_, superclass, _, _⟩ => by cases superclass <;> rfl
  | .return keyword value =>
    (Expr.alike_resolveOption _ value).classKind.trans
      ((alike_check _ _ keyword).classKind.trans (alike_check _ _ keyword).classKind)
  | .break keyword | .continue keyword => (alike_check _ _ keyword).classKind

theorem Stmt.classKind_resolveAll (c : Context) :
    (ss : List Stmt) → (Stmt.resolveAll c ss).classKind = c.classKind
  | [] => rfl
  | s :: rest => (Stmt.classKind_resolveAll _ rest).trans (s.classKind_resolve c)

theorem Stmt.classKind_resolveOption (c : Context) :
    (s : Option Stmt) → (Stmt.resolveOption c s).classKind = c.classKind
  | none => rfl
  | some s => s.classKind_resolve c

theorem Function.classKind_resolve (kind : FunctionKind) (c : Context) :
    (f : Function) → (f.resolve kind c).classKind = c.classKind
  | ⟨_, params, body, _⟩ =>
    (Stmt.classKind_resolveAll _ body).trans (parameters_classKind params (c.enterFunction kind))

end

namespace Context.Pads

variable {c c' : Context} {pads : List Nat}

theorem expression (h : Pads pads c c') (e : Expr) (hq : (e.resolve c).complaints = []) :
    Pads pads (e.resolve c) (e.resolve c') :=
  h.alike (e.alike_resolve c) (e.alike_resolve c') (e.quiet_resolve h.spares h.quiet hq)

theorem expressionOption (h : Pads pads c c') (e : Option Expr)
    (hq : (Expr.resolveOption c e).complaints = []) :
    Pads pads (Expr.resolveOption c e) (Expr.resolveOption c' e) := by
  cases e with
  | none => exact h
  | some e => exact h.expression e hq

/-- An expression that the second program has later, in a scope in which nothing is declared. -/
theorem late {c₀ : Context} {n : Nat} (h : Pads ((n + 1) :: pads) c c') {e : Option Expr}
    (hk : c.classKind = c₀.classKind) (hq : (Expr.resolveOption c₀ e).complaints = []) :
    Pads ((n + 1) :: pads) c (Expr.resolveOption c' e) := by
  have hspares : c₀.Spares c' := by
    refine ⟨h.classKind.trans hk, fun name hu => ?_⟩
    obtain ⟨s, rest, hs, rfl, -⟩ := h.scopes.pad_inv
    rw [innermost?, hs] at hu
    cases hu
  exact h.alike .refl (Expr.alike_resolveOption c' e)
    (Expr.quiet_resolveOption hspares h.quiet e hq)

theorem var (h : Pads (0 :: pads) c c') {name : Token} {initializer : Option Expr}
    (hq : ((Stmt.var name initializer).resolve c).complaints = []) :
    Pads (0 :: pads) ((Stmt.var name initializer).resolve c)
      ((Stmt.var name initializer).resolve c') := by
  have hq₁ := (grows_define name .variable).quiet hq
  have hq₀ := (Expr.grows_resolveOption _ initializer).quiet hq₁
  exact ((h.declare hq₀).expressionOption initializer hq₁).define name .variable

theorem clause (h : Pads (0 :: pads) c c') {initializer : Option Stmt}
    (hi : ∀ s ∈ initializer, s.isClause = true)
    (hq : (Stmt.resolveOption c initializer).complaints = []) :
    Pads (0 :: pads) (Stmt.resolveOption c initializer) (Stmt.resolveOption c' initializer) := by
  cases initializer with
  | none => exact h
  | some s =>
    cases s with
    | var name e => exact h.var hq
    | expression e => exact h.expression e hq
    | _ => cases hi _ rfl

theorem className (h : Pads (0 :: pads) c c') {name : Token}
    (hq : (c.className name).complaints = []) :
    Pads (0 :: pads) (c.className name) (c'.className name) :=
  ((h.withClassKind .plain).declare ((grows_define name .class).quiet hq)).define name .class

theorem enterSuperclass (h : Pads pads c c') {name : Token} {use : Occurrence}
    (hq : (c.enterSuperclass name use).complaints = []) :
    Pads (0 :: pads) (c.enterSuperclass name use) (c'.enterSuperclass name use) := by
  have hread := (grows_openScope.before (grows_bind _ _)).quiet hq
  have hself := (Expr.grows_resolve _ (.variable use)).quiet hread
  have hcheck : Pads pads (c.check (use.name.lexeme == name.lexeme) .inheritsFromItself use.name)
      (c'.check (use.name.lexeme == name.lexeme) .inheritsFromItself use.name) := h.check rfl hself
  exact ((hcheck.withClassKind .subclass).expression (.variable use) hread).openScope.bind _ _

theorem enterClass (h : Pads (0 :: pads) c c') {name : Token} {superclass : Option Occurrence}
    (hq : (c.enterClass name superclass).complaints = []) :
    Pads (classPads superclass (0 :: pads)) (c.enterClass name superclass)
      (c'.enterClass name superclass) := by
  have hq' := (grows_openScope.before (grows_bind _ _)).quiet hq
  cases superclass with
  | none => exact (h.className hq').openScope.bind _ _
  | some use =>
    have hname := h.className ((grows_enterSuperclass name use).quiet hq')
    exact (hname.enterSuperclass hq').openScope.bind _ _

theorem leaveClass {c₁ c₁' : Context} {superclass : Option Occurrence}
    (h : Pads (classPads superclass pads) c₁ c₁') (houter : Pads pads c c') :
    Pads pads (c₁.leaveClass superclass c) (c₁'.leaveClass superclass c') := by
  cases superclass with
  | none =>
    exact ⟨(closeScope h).scopes, h.function, houter.classKind, h.loopDepth, h.quiet⟩
  | some use =>
    exact ⟨(closeScope h).closeScope.scopes, h.function, houter.classKind, h.loopDepth, h.quiet⟩

end Context.Pads

theorem Stmt.resolveAll_expressions (c : Context) (e : Option Expr) :
    Stmt.resolveAll c (e.toList.map .expression) = Expr.resolveOption c e := by
  cases e <;> rfl

theorem Stmt.resolve_whileForm (c : Context) (initializer : Option Stmt)
    (condition increment : Option Expr) (body : Stmt) :
    (Stmt.whileForm initializer condition increment body).resolve c =
      (Expr.resolveOption (body.resolve
        (Expr.resolveOption (Stmt.resolveOption c.openScope initializer)
          condition).enterLoop.openScope) increment).closeScope.leaveLoop.closeScope := by
  have hbody (c : Context) : (Stmt.whileBody increment body).resolve c =
      (Expr.resolveOption (body.resolve c.openScope) increment).closeScope := by
    rw [Stmt.whileBody, Stmt.resolve, Stmt.resolveAll, Stmt.resolveAll_expressions]
  have hinitializer (c : Context) : Stmt.resolveAll c initializer.toList =
      Stmt.resolveOption c initializer := by
    cases initializer <;> rfl
  rw [Stmt.whileForm, Stmt.resolve, Stmt.resolveAll_append, hinitializer, Stmt.resolveAll,
    Stmt.resolveAll, Stmt.whileRounds, Stmt.resolve, hbody]
  cases condition <;> rfl

/-- Only a statement that declares a name needs a scope that both programs have. -/
theorem padless {s : Stmt} {n : Nat} (h : s.declares = false) : s.declares = true → n = 0 :=
  fun hd => absurd hd (h ▸ Bool.false_ne_true)

mutual

/-- **The resolver goes over both statements in step.** A statement that declares a name stands
directly in a scope that both programs have. -/
theorem Stmt.Lowers.pads {s t : Stmt} {c c' : Context} {n : Nat} {pads : List Nat} : s.Lowers t →
    s.Regular → (s.declares = true → n = 0) → Pads (n :: pads) c c' →
    (s.resolve c).complaints = [] → Pads (n :: pads) (s.resolve c) (t.resolve c')
  | .expression e, _, _, h, hq => h.expression e hq
  | .print e, _, _, h, hq => h.expression e hq
  | .var name initializer, _, hd, h, hq => by
    cases hd rfl
    exact h.var hq
  | .block hl, .block hr, _, h, hq => (hl.pads hr h.openScope hq).closeScope
  | .ifThen condition hl, .ifElse _ hr hn _ _, _, h, hq =>
    hl.pads hr (padless hn)
      (h.expression condition ((Stmt.grows_resolve _ _).quiet hq)) hq
  | .ifElse condition hl₁ hl₂, .ifElse _ hr₁ hn₁ hr₂ hn₂, _, h, hq => by
    have hq₁ := (Stmt.grows_resolveOption _ _).quiet hq
    have hc := h.expression condition ((Stmt.grows_resolve _ _).quiet hq₁)
    have hb := hl₁.pads hr₁ (padless hn₁) hc hq₁
    exact hl₂.pads (hr₂ _ rfl) (padless (hn₂ _ rfl)) hb hq
  | .whileLoop condition hl, .whileLoop _ hr hn, _, h, hq => by
    have hc := h.expression condition ((grows_enterLoop.before (Stmt.grows_resolve _ _)).quiet hq)
    exact (hl.pads hr (padless hn) hc.enterLoop hq).leaveLoop
  | .forLoop initializer condition increment hl, .forLoop _ hi _ _ hr hn, _, h, hq => by
    have hq₂ := (grows_enterLoop.before (Stmt.grows_resolve _ _)).quiet hq
    have hq₁ := (Expr.grows_resolveOption _ increment).quiet hq₂
    have hq₀ := (Expr.grows_resolveOption _ condition).quiet hq₁
    have hhead := ((h.openScope.clause hi hq₀).expressionOption condition hq₁).expressionOption
      increment hq₂
    exact (hl.pads hr (padless hn) hhead.enterLoop
      hq).leaveLoop.closeScope
  | .whileForm initializer condition increment hl _, .forLoop _ hi _ _ hr hn, _, h, hq => by
    have hq₂ := (grows_enterLoop.before (Stmt.grows_resolve _ _)).quiet hq
    have hq₁ := (Expr.grows_resolveOption _ increment).quiet hq₂
    have hq₀ := (Expr.grows_resolveOption _ condition).quiet hq₁
    have hhead := (h.openScope.clause hi hq₀).expressionOption condition hq₁
    -- In the while form the increment comes behind the body, and both stand in a further scope.
    have hinner := (hhead.alike (Expr.alike_resolveOption _ increment) .refl hhead.quiet).enterLoop
    have hbody := hl.pads hr (padless hn) hinner.openPad hq
    have hround := hbody.late ((Stmt.classKind_resolve _ _).trans
      (Expr.alike_resolveOption _ increment).classKind) hq₂
    rw [Stmt.resolve_whileForm]
    exact hround.closePad.leaveLoop.closeScope
  | .function hl, .function hr, hd, h, hq => by
    cases hd rfl
    have hq₁ := (Function.grows_resolve _ _ _).quiet hq
    rw [Stmt.resolve, Stmt.resolve, hl.name]
    exact hl.pads .function hr ((h.declare ((grows_define _ .function).quiet hq₁)).define _ _) hq
  | .class name superclass span hl, .class (.mk _ _ hr), hd, h, hq => by
    cases hd rfl
    have hq₂ := (grows_leaveClass superclass c).quiet hq
    have hinner := h.enterClass ((Function.grows_resolveMethods _ _).quiet hq₂)
    exact (hl.pads hr hinner hq₂).leaveClass h
  | .return keyword value, _, _, h, hq => by
    have hq₂ := (Expr.grows_resolveOption _ value).quiet hq
    have hq₁ := (grows_check _ _ keyword).quiet hq₂
    have hnone : (c'.function == .none) = (c.function == .none) := by rw [h.function]
    have hplace := h.check hnone hq₁
    exact (hplace.check (by rw [hplace.function]) hq₂).expressionOption value hq
  | .break keyword, _, _, h, hq => h.check (by rw [h.loopDepth]) hq
  | .continue keyword, _, _, h, hq => h.check (by rw [h.loopDepth]) hq

theorem Stmt.LowersAll.pads {ss ts : List Stmt} {c c' : Context} {pads : List Nat} :
    Stmt.LowersAll ss ts → (∀ s ∈ ss, s.Regular) → Pads (0 :: pads) c c' →
    (Stmt.resolveAll c ss).complaints = [] →
    Pads (0 :: pads) (Stmt.resolveAll c ss) (Stmt.resolveAll c' ts)
  | .nil, _, h, _ => h
  | .cons hl hls, hr, h, hq =>
    hls.pads (fun s hs => hr s (List.mem_cons_of_mem _ hs))
      (hl.pads (hr _ List.mem_cons_self) (fun _ => rfl) h
        ((Stmt.grows_resolveAll _ _).quiet hq)) hq

theorem Function.Lowers.pads {f f' : Function} {c c' : Context} {pads : List Nat}
    (kind : FunctionKind) : f.Lowers f' → f.Regular → Pads pads c c' →
    (f.resolve kind c).complaints = [] → Pads pads (f.resolve kind c) (f'.resolve kind c')
  | .mk name params span hl, .mk _ _ hr, h, hq => by
    have hq₂ := (grows_leaveFunction c).quiet hq
    have hparams := (h.enterFunction kind).parameters params ((Stmt.grows_resolveAll _ _).quiet hq₂)
    exact (hl.pads hr hparams hq₂).leaveFunction h

theorem Function.LowersAll.pads {fs fs' : List Function} {c c' : Context} {pads : List Nat} :
    Function.LowersAll fs fs' → (∀ f ∈ fs, f.Regular) → Pads pads c c' →
    (Function.resolveMethods c fs).complaints = [] →
    Pads pads (Function.resolveMethods c fs) (Function.resolveMethods c' fs')
  | .nil, _, h, _ => h
  | .cons hl hls, hr, h, hq => by
    rw [Function.resolveMethods, Function.resolveMethods, hl.methodKind]
    exact hls.pads (fun g hg => hr g (List.mem_cons_of_mem _ hg))
      (hl.pads _ (hr _ List.mem_cons_self) h ((Function.grows_resolveMethods _ _).quiet hq)) hq

end

/-! ## Programs -/

/-- **A program in its while form has no static problems if the program itself has none.** -/
theorem hasError_of_lowers {program lowered : List Stmt} (hl : Stmt.LowersAll program lowered)
    (hr : ∀ s ∈ program, s.Regular) (h : (resolve program).hasError = false) :
    (resolve lowered).hasError = false := by
  have hstart : Context.start.Pads [0] Context.start := ⟨.cons rfl .nil, rfl, rfl, rfl, rfl⟩
  exact noError_of_quiet (hl.pads hr hstart (complaints_of_resolve h)).quiet

end Lox
