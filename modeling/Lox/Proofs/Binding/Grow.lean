import Lox.Binding.Resolve
import Lox.Proofs.Syntax.Parse

/-!
# What the resolver leaves alone

Whatever the resolver meets, it takes no complaint back and touches no distance but those of the
occurrences in the part that it walks over; an expression changes no scope.

* `Context.Grows`: complaints were added, and distances of certain occurrences;
* `Expr.grows_resolve`, **`Stmt.grows_resolve`**, …: every part of a program makes the context grow;
* `Context.Alike`: two contexts with the same scopes around them, `Expr.alike_resolve`.
-/

namespace Lox

namespace Context

/-- Complaints about errors were added, and distances of the given occurrences were recorded. -/
structure Grows (ids : List ExprId) (c c' : Context) : Prop where
  complaints : c.complaints <:+ c'.complaints
  errors : (∀ x ∈ c.complaints, x.isError = true) → ∀ x ∈ c'.complaints, x.isError = true
  distances : ∀ id, id ∉ ids → c'.distances[id]? = c.distances[id]?

variable {c c₁ c₂ : Context} {xs ys : List ExprId}

namespace Grows

theorem of_eq (hc : c₁.complaints = c.complaints) (hd : c₁.distances = c.distances) :
    Grows xs c c₁ := by
  refine ⟨hc ▸ List.suffix_rfl, fun h => hc ▸ h, fun id _ => ?_⟩
  rw [hd]

theorem refl : Grows xs c c := of_eq rfl rfl

theorem widen (h : Grows xs c c₁) (hsub : ∀ id ∈ xs, id ∈ ys) : Grows ys c c₁ :=
  ⟨h.complaints, h.errors, fun id hid => h.distances id fun hmem => hid (hsub id hmem)⟩

theorem trans (h₁ : Grows xs c c₁) (h₂ : Grows xs c₁ c₂) : Grows xs c c₂ :=
  ⟨h₁.complaints.trans h₂.complaints, fun h => h₂.errors (h₁.errors h), fun id hid =>
    (h₂.distances id hid).trans (h₁.distances id hid)⟩

theorem append (h₁ : Grows xs c c₁) (h₂ : Grows ys c₁ c₂) : Grows (xs ++ ys) c c₂ :=
  (h₁.widen fun _ => List.mem_append_left ys).trans (h₂.widen fun _ => List.mem_append_right xs)

theorem before (h₁ : Grows [] c c₁) (h₂ : Grows xs c₁ c₂) : Grows xs c c₂ :=
  (h₁.widen fun _ h => absurd h List.not_mem_nil).trans h₂

theorem behind (h₁ : Grows xs c c₁) (h₂ : Grows [] c₁ c₂) : Grows xs c c₂ :=
  h₁.trans (h₂.widen fun _ h => absurd h List.not_mem_nil)

/-- Without complaints in the end there were none before. -/
theorem quiet (h : Grows xs c c₁) (hq : c₁.complaints = []) : c.complaints = [] := by
  have hs := h.complaints
  rw [hq] at hs
  exact List.suffix_nil.mp hs

end Grows

/-! ## Single steps -/

theorem grows_openScope : Grows [] c c.openScope := .of_eq rfl rfl

theorem grows_closeScope : Grows [] c c.closeScope := .of_eq rfl rfl

theorem grows_enterLoop : Grows [] c c.enterLoop := .of_eq rfl rfl

theorem grows_leaveLoop : Grows [] c c.leaveLoop := .of_eq rfl rfl

theorem grows_enterFunction (kind : FunctionKind) : Grows [] c (c.enterFunction kind) :=
  .of_eq rfl rfl

theorem grows_leaveFunction (outside : Context) : Grows [] c (c.leaveFunction outside) :=
  .of_eq rfl rfl

theorem grows_classKind (kind : ClassKind) : Grows [] c { c with classKind := kind } :=
  .of_eq rfl rfl

theorem grows_complain (problem : StaticProblem) (place : Token) :
    Grows [] c (c.complain problem place) :=
  ⟨List.suffix_cons _ _, fun h => List.forall_mem_cons.mpr ⟨rfl, h⟩, fun _ _ => rfl⟩

theorem grows_check (broken : Bool) (problem : StaticProblem) (place : Token) :
    Grows [] c (c.check broken problem place) := by
  rw [check]
  split
  · exact grows_complain problem place
  · exact .refl

/-- Binding a name changes nothing but the scopes. -/
theorem bind_eq_with (name : String) (binding : Binding) :
    c.bind name binding = { c with scopes := (c.bind name binding).scopes } := by
  unfold bind
  split <;> rfl

theorem bind_complaints (name : String) (binding : Binding) :
    (c.bind name binding).complaints = c.complaints := by
  rw [bind_eq_with]

theorem bind_distances (name : String) (binding : Binding) :
    (c.bind name binding).distances = c.distances := by
  rw [bind_eq_with]

theorem bind_function (name : String) (binding : Binding) :
    (c.bind name binding).function = c.function := by
  rw [bind_eq_with]

theorem bind_classKind (name : String) (binding : Binding) :
    (c.bind name binding).classKind = c.classKind := by
  rw [bind_eq_with]

theorem bind_loopDepth (name : String) (binding : Binding) :
    (c.bind name binding).loopDepth = c.loopDepth := by
  rw [bind_eq_with]

theorem bind_symbols (name : String) (binding : Binding) :
    (c.bind name binding).symbols = c.symbols := by
  rw [bind_eq_with]

theorem define_of_nil (hc : c.scopes = []) (name : Token) (kind : SymbolKind) :
    c.define name kind = c := by
  rw [define, hc]

theorem define_of_ne_nil (hc : c.scopes ≠ []) (name : Token) (kind : SymbolKind) :
    c.define name kind =
      { c.bind name.lexeme (.declared name.id) with symbols := c.symbols.define name kind } := by
  unfold define
  split
  · exact absurd (by assumption) hc
  · rfl

/-- But for the symbols, a name that becomes usable is bound like any other. -/
theorem define_eq_bind (name : Token) (kind : SymbolKind) :
    c.define name kind =
      { c.bind name.lexeme (.declared name.id) with symbols := (c.define name kind).symbols } := by
  by_cases hc : c.scopes = []
  · rw [define_of_nil hc, bind, hc]
  · rw [define_of_ne_nil hc]

theorem define_symbols (hc : c.scopes ≠ []) (name : Token) (kind : SymbolKind) :
    (c.define name kind).symbols = c.symbols.define name kind := by
  rw [define_of_ne_nil hc]

theorem grows_bind (name : String) (binding : Binding) : Grows [] c (c.bind name binding) :=
  .of_eq (bind_complaints name binding) (bind_distances name binding)

theorem grows_declare (name : Token) : Grows [] c (c.declare name) :=
  (grows_check _ _ _).trans (grows_bind _ _)

theorem grows_define (name : Token) (kind : SymbolKind) : Grows [] c (c.define name kind) :=
  define_eq_bind name kind ▸ (grows_bind name.lexeme (.declared name.id)).trans (.of_eq rfl rfl)

theorem grows_parameter (name : Token) : Grows [] c (c.parameter name) :=
  (grows_declare name).trans (grows_define name .parameter)

theorem grows_parameters (params : List Token) (c : Context) :
    Grows [] c (params.foldl parameter c) := by
  induction params generalizing c with
  | nil => exact .refl
  | cons name rest ih => exact (grows_parameter name).trans (ih (c.parameter name))

theorem use_complaints (occurrence : Occurrence) :
    (c.use occurrence).complaints = c.complaints := by
  unfold use
  split
  · rfl
  · split <;> rfl

theorem use_distances (occurrence : Occurrence) :
    (c.use occurrence).distances =
      match find? occurrence.name.lexeme c.scopes with
      | none => c.distances
      | some found => c.distances.insert occurrence.id found.1 := by
  unfold use
  cases find? occurrence.name.lexeme c.scopes with
  | none => rfl
  | some found => obtain ⟨distance, binding⟩ := found; cases binding <;> rfl

theorem grows_use (occurrence : Occurrence) : Grows [occurrence.id] c (c.use occurrence) := by
  have hc := use_complaints (c := c) occurrence
  refine ⟨hc ▸ List.suffix_rfl, fun h => hc ▸ h, fun id hid => ?_⟩
  rw [use_distances]
  split
  · rfl
  · have hne : occurrence.id ≠ id := fun h => hid (List.mem_singleton.mpr h.symm)
    simp [Std.TreeMap.getElem?_insert, hne]

end Context

/-! ## Expressions -/

open Context

mutual

theorem Expr.grows_resolve (c : Context) : (e : Expr) → Grows e.ids c (e.resolve c)
  | .literal _ => .refl
  | .grouping inner => inner.grows_resolve c
  | .unary _ _ operand => operand.grows_resolve c
  | .binary left _ _ right => (left.grows_resolve c).append (right.grows_resolve _)
  | .logical left _ _ right => (left.grows_resolve c).append (right.grows_resolve _)
  | .variable use => (grows_check _ _ _).before (grows_use use)
  | .assign target value => by
    refine ((value.grows_resolve c).append (grows_use target)).widen fun id hid => ?_
    rw [Expr.ids]
    simpa [or_comm] using hid
  | .call callee arguments _ =>
    (callee.grows_resolve c).append (Expr.grows_resolveAll _ arguments)
  | .get object _ => object.grows_resolve c
  | .set object _ value => (object.grows_resolve c).append (value.grows_resolve _)
  | .this keyword => by
    rw [Expr.resolve]
    split
    · exact (grows_complain _ _).widen fun _ h => absurd h List.not_mem_nil
    · exact grows_use keyword
  | .super keyword _ => by
    rw [Expr.resolve]
    split
    · exact (grows_complain _ _).widen fun _ h => absurd h List.not_mem_nil
    · exact (grows_complain _ _).widen fun _ h => absurd h List.not_mem_nil
    · exact grows_use keyword

theorem Expr.grows_resolveAll (c : Context) :
    (es : List Expr) → Grows (Expr.idsAll es) c (Expr.resolveAll c es)
  | [] => .refl
  | e :: rest => (e.grows_resolve c).append (Expr.grows_resolveAll _ rest)

end

theorem Expr.grows_resolveOption (c : Context) :
    (e : Option Expr) → Grows (Expr.idsOption e) c (Expr.resolveOption c e)
  | none => .refl
  | some e => e.grows_resolve c

/-! ## Statements -/

namespace Context

variable {c : Context}

theorem grows_enterSuperclass (className : Token) (superclass : Occurrence) :
    Grows [superclass.id] c (c.enterSuperclass className superclass) :=
  (grows_check _ _ _).before ((grows_classKind .subclass).before
    ((Expr.grows_resolve _ (.variable superclass)).behind (grows_openScope.before (grows_bind _ _))))

theorem grows_enterClass (name : Token) (superclass : Option Occurrence) :
    Grows (Occurrence.idsOption superclass) c (c.enterClass name superclass) := by
  unfold enterClass
  refine Grows.behind ((grows_classKind .plain).before ((grows_declare name).before
    ((grows_define name .class).before ?_))) (grows_openScope.before (grows_bind _ _))
  cases superclass with
  | none => exact .refl
  | some superclass => exact grows_enterSuperclass name superclass

theorem grows_leaveClass (superclass : Option Occurrence) (outside : Context) :
    Grows [] c (c.leaveClass superclass outside) := by
  cases superclass <;> exact .of_eq rfl rfl

end Context

mutual

theorem Stmt.grows_resolve (c : Context) : (s : Stmt) → Grows s.ids c (s.resolve c)
  | .expression e => e.grows_resolve c
  | .print e => e.grows_resolve c
  | .var name initializer =>
    (grows_declare name).before
      ((Expr.grows_resolveOption _ initializer).behind (grows_define name .variable))
  | .block body =>
    (grows_openScope.before (Stmt.grows_resolveAll _ body)).behind grows_closeScope
  | .ifElse condition thenBranch elseBranch =>
    ((condition.grows_resolve c).append (thenBranch.grows_resolve _)).append
      (Stmt.grows_resolveOption _ elseBranch)
  | .whileLoop condition body =>
    ((condition.grows_resolve c).append (grows_enterLoop.before (body.grows_resolve _))).behind
      grows_leaveLoop
  | .forLoop initializer condition increment body => by
    rw [Stmt.resolve, Stmt.ids]
    have hinit := grows_openScope.before (Stmt.grows_resolveOption c.openScope initializer)
    have hcond := hinit.append (Expr.grows_resolveOption _ condition)
    have hstep := hcond.append (Expr.grows_resolveOption _ increment)
    have hbody := hstep.append (grows_enterLoop.before (body.grows_resolve _))
    exact (hbody.behind grows_leaveLoop).behind grows_closeScope
  | .function declaration =>
    (grows_declare declaration.name).before ((grows_define declaration.name .function).before
      (declaration.grows_resolve .function _))
  | .class declaration => declaration.grows_resolve c
  | .return keyword value =>
    (grows_check _ _ keyword).before ((grows_check _ _ keyword).before
      (Expr.grows_resolveOption _ value))
  | .break keyword => grows_check _ _ keyword
  | .continue keyword => grows_check _ _ keyword

theorem Stmt.grows_resolveAll (c : Context) :
    (ss : List Stmt) → Grows (Stmt.idsAll ss) c (Stmt.resolveAll c ss)
  | [] => .refl
  | s :: rest => (s.grows_resolve c).append (Stmt.grows_resolveAll _ rest)

theorem Stmt.grows_resolveOption (c : Context) :
    (s : Option Stmt) → Grows (Stmt.idsOption s) c (Stmt.resolveOption c s)
  | none => .refl
  | some s => s.grows_resolve c

theorem Function.grows_resolve (kind : FunctionKind) (c : Context) :
    (f : Function) → Grows f.ids c (f.resolve kind c)
  | ⟨_, params, body, _⟩ =>
    ((grows_enterFunction kind).before ((grows_parameters params _).before
      (Stmt.grows_resolveAll _ body))).behind (grows_leaveFunction c)

theorem Function.grows_resolveMethods (c : Context) :
    (fs : List Function) → Grows (Function.idsAll fs) c (Function.resolveMethods c fs)
  | [] => .refl
  | f :: rest => (f.grows_resolve f.methodKind c).append (Function.grows_resolveMethods _ rest)

theorem Class.grows_resolve (c : Context) : (k : Class) → Grows k.ids c (k.resolve c)
  | ⟨name, superclass, methods, _⟩ =>
    ((grows_enterClass name superclass).append (Function.grows_resolveMethods _ methods)).behind
      (grows_leaveClass superclass c)

end

/-! ## Scopes around an expression -/

namespace Context

/-- The same scopes, the same enclosing function and class and as many open loops. -/
structure Alike (c c' : Context) : Prop where
  scopes : c'.scopes = c.scopes
  function : c'.function = c.function
  classKind : c'.classKind = c.classKind
  loopDepth : c'.loopDepth = c.loopDepth

variable {c c₁ c₂ : Context}

theorem Alike.refl : Alike c c := ⟨rfl, rfl, rfl, rfl⟩

theorem Alike.trans (h₁ : Alike c c₁) (h₂ : Alike c₁ c₂) : Alike c c₂ :=
  ⟨h₂.scopes.trans h₁.scopes, h₂.function.trans h₁.function, h₂.classKind.trans h₁.classKind,
    h₂.loopDepth.trans h₁.loopDepth⟩

theorem alike_check (broken : Bool) (problem : StaticProblem) (place : Token) :
    Alike c (c.check broken problem place) := by
  rw [check]
  split <;> exact ⟨rfl, rfl, rfl, rfl⟩

theorem alike_use (occurrence : Occurrence) : Alike c (c.use occurrence) := by
  unfold use
  split
  · exact .refl
  · split <;> exact ⟨rfl, rfl, rfl, rfl⟩

end Context

mutual

theorem Expr.alike_resolve (c : Context) : (e : Expr) → Alike c (e.resolve c)
  | .literal _ => .refl
  | .grouping inner => inner.alike_resolve c
  | .unary _ _ operand => operand.alike_resolve c
  | .binary left _ _ right => (left.alike_resolve c).trans (right.alike_resolve _)
  | .logical left _ _ right => (left.alike_resolve c).trans (right.alike_resolve _)
  | .variable use => (alike_check _ _ _).trans (alike_use use)
  | .assign target value => (value.alike_resolve c).trans (alike_use target)
  | .call callee arguments _ =>
    (callee.alike_resolve c).trans (Expr.alike_resolveAll _ arguments)
  | .get object _ => object.alike_resolve c
  | .set object _ value => (object.alike_resolve c).trans (value.alike_resolve _)
  | .this keyword => by
    rw [Expr.resolve]
    split
    · exact ⟨rfl, rfl, rfl, rfl⟩
    · exact alike_use keyword
  | .super keyword _ => by
    rw [Expr.resolve]
    split
    · exact ⟨rfl, rfl, rfl, rfl⟩
    · exact ⟨rfl, rfl, rfl, rfl⟩
    · exact alike_use keyword

theorem Expr.alike_resolveAll (c : Context) :
    (es : List Expr) → Alike c (Expr.resolveAll c es)
  | [] => .refl
  | e :: rest => (e.alike_resolve c).trans (Expr.alike_resolveAll _ rest)

end

theorem Expr.alike_resolveOption (c : Context) :
    (e : Option Expr) → Alike c (Expr.resolveOption c e)
  | none => .refl
  | some e => e.alike_resolve c

end Lox
