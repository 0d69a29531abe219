import Lox.Binding.Resolve
import Lox.Proofs.Syntax.Transfer

/-!
# Scopes do not depend on numbers

The numbers of occurrences only say under which key a distance is recorded. Moving them on changes
nothing else that the walk over a program finds.

* `Context.Tallies`: what is known at two places differs in the recorded distances alone;
* `Context.Tallies.use`, `Context.Tallies.enterClass`, …: the steps of the walk keep it so;
* **`resolve_shiftAll`**: a program with its numbers moved on has the same symbols and complaints.
-/

namespace Lox

/-- What is known at the two places differs in the recorded distances alone. -/
def Context.Tallies (c d : Context) : Prop := ∃ distances, d = { c with distances := distances }

namespace Context.Tallies

variable {c d : Context}

theorem refl (c : Context) : c.Tallies c := ⟨c.distances, rfl⟩

theorem step (h : c.Tallies d) (f : Context → Context)
    (hf : ∀ c distances, f { c with distances := distances } = { f c with distances := distances }) :
    (f c).Tallies (f d) := by
  obtain ⟨distances, rfl⟩ := h
  exact ⟨distances, hf c distances⟩

theorem scopes (h : c.Tallies d) : d.scopes = c.scopes := by
  obtain ⟨_, rfl⟩ := h
  rfl

theorem function (h : c.Tallies d) : d.function = c.function := by
  obtain ⟨_, rfl⟩ := h
  rfl

theorem classKind (h : c.Tallies d) : d.classKind = c.classKind := by
  obtain ⟨_, rfl⟩ := h
  rfl

theorem loopDepth (h : c.Tallies d) : d.loopDepth = c.loopDepth := by
  obtain ⟨_, rfl⟩ := h
  rfl

theorem innermost? (h : c.Tallies d) (name : String) : d.innermost? name = c.innermost? name := by
  rw [Context.innermost?, h.scopes, Context.innermost?]

theorem complain (h : c.Tallies d) (problem : StaticProblem) (place : Token) :
    (c.complain problem place).Tallies (d.complain problem place) :=
  h.step (·.complain problem place) fun _ _ => rfl

theorem check (h : c.Tallies d) (broken : Bool) (problem : StaticProblem) (place : Token) :
    (c.check broken problem place).Tallies (d.check broken problem place) := by
  cases broken
  · exact h
  · exact h.complain problem place

theorem openScope (h : c.Tallies d) : c.openScope.Tallies d.openScope := h.step _ fun _ _ => rfl

theorem closeScope (h : c.Tallies d) : c.closeScope.Tallies d.closeScope := h.step _ fun _ _ => rfl

theorem enterLoop (h : c.Tallies d) : c.enterLoop.Tallies d.enterLoop := h.step _ fun _ _ => rfl

theorem leaveLoop (h : c.Tallies d) : c.leaveLoop.Tallies d.leaveLoop := h.step _ fun _ _ => rfl

theorem bind (h : c.Tallies d) (name : String) (binding : Binding) :
    (c.bind name binding).Tallies (d.bind name binding) :=
  h.step (·.bind name binding) fun c distances => by
    obtain ⟨scopes, _⟩ := c
    cases scopes <;> rfl

theorem declare (h : c.Tallies d) (name : Token) : (c.declare name).Tallies (d.declare name) := by
  rw [Context.declare, Context.declare, h.innermost?]
  exact (h.check _ _ _).bind _ _

theorem define (h : c.Tallies d) (name : Token) (kind : SymbolKind) :
    (c.define name kind).Tallies (d.define name kind) :=
  h.step (·.define name kind) fun c distances => by
    obtain ⟨scopes, _⟩ := c
    cases scopes <;> rfl

/-- A use is recorded under its number, and linked to its declaration by its name. -/
theorem use (h : c.Tallies d) {use use' : Occurrence} (hname : use'.name = use.name) :
    (c.use use).Tallies (d.use use') := by
  obtain ⟨distances, rfl⟩ := h
  unfold Context.use
  rw [hname]
  cases find? use.name.lexeme c.scopes with
  | none => exact ⟨distances, rfl⟩
  | some found =>
    obtain ⟨distance, binding⟩ := found
    cases binding <;> exact ⟨_, rfl⟩

theorem parameters (h : c.Tallies d) (params : List Token) :
    (params.foldl Context.parameter c).Tallies (params.foldl Context.parameter d) := by
  induction params generalizing c d with
  | nil => exact h
  | cons name params ih => exact ih ((h.declare name).define name .parameter)

theorem enterFunction (h : c.Tallies d) (kind : FunctionKind) :
    (c.enterFunction kind).Tallies (d.enterFunction kind) :=
  h.step (·.enterFunction kind) fun _ _ => rfl

theorem leaveFunction (h : c.Tallies d) {outside outside' : Context} (ho : outside.Tallies outside') :
    (c.leaveFunction outside).Tallies (d.leaveFunction outside') := by
  obtain ⟨_, rfl⟩ := ho
  exact h.step (·.leaveFunction outside) fun _ _ => rfl

variable (k : Nat)

theorem read (h : c.Tallies d) (use : Occurrence) :
    ((Expr.variable use).resolve c).Tallies ((Expr.variable (use.shift k)).resolve d) := by
  rw [Expr.resolve, Expr.resolve]
  show Context.Tallies _ ((d.check (d.innermost? use.name.lexeme == some .uninitialized)
    .readInInitializer use.name).use (use.shift k))
  rw [h.innermost?]
  exact (h.check _ _ _).use rfl

theorem enterSuperclass (h : c.Tallies d) (name : Token) (superclass : Occurrence) :
    (c.enterSuperclass name superclass).Tallies (d.enterSuperclass name (superclass.shift k)) := by
  have hcheck := h.check (superclass.name.lexeme == name.lexeme) .inheritsFromItself superclass.name
  have hclass := hcheck.step (fun c => { c with classKind := .subclass }) fun _ _ => rfl
  exact ((hclass.read k superclass).openScope).bind _ _

theorem enterClass (h : c.Tallies d) (name : Token) (superclass : Option Occurrence) :
    (c.enterClass name superclass).Tallies
      (d.enterClass name (superclass.map (Occurrence.shift k))) := by
  have hplain := h.step (fun c => { c with classKind := .plain }) fun _ _ => rfl
  have hname := (hplain.declare name).define name .class
  cases superclass with
  | none => exact hname.openScope.bind _ _
  | some superclass => exact (hname.enterSuperclass k name superclass).openScope.bind _ _

theorem leaveClass (h : c.Tallies d) (superclass : Option Occurrence) {outside outside' : Context}
    (ho : outside.Tallies outside') :
    (c.leaveClass superclass outside).Tallies
      (d.leaveClass (superclass.map (Occurrence.shift k)) outside') := by
  obtain ⟨_, rfl⟩ := ho
  cases superclass with
  | none => exact h.step (·.leaveClass none outside) fun _ _ => rfl
  | some superclass => exact h.step (·.leaveClass (some superclass) outside) fun _ _ => rfl

end Context.Tallies

/-! ## The walk -/

section

variable (k : Nat)

@[simp] theorem Function.isInitializer_shift (f : Function) :
    (f.shift k).isInitializer = f.isInitializer := by
  cases f
  rfl

mutual

theorem Expr.tallies_shift {c d : Context} (h : c.Tallies d) :
    (e : Expr) → (e.resolve c).Tallies ((e.shift k).resolve d)
  | .literal _ => h
  | .grouping inner | .unary _ _ inner | .get inner _ => Expr.tallies_shift h inner
  | .binary left _ _ right | .logical left _ _ right | .set left _ right =>
    Expr.tallies_shift (Expr.tallies_shift h left) right
  | .variable use => h.read k use
  | .assign _ value => (Expr.tallies_shift h value).use rfl
  | .call callee arguments _ => Expr.talliesAll_shift (Expr.tallies_shift h callee) arguments
  | .this keyword => by
    simp only [Expr.shift, Expr.resolve, h.classKind]
    cases c.classKind
    · exact h.complain _ _
    · exact h.use rfl
    · exact h.use rfl
  | .super keyword _ => by
    simp only [Expr.shift, Expr.resolve, h.classKind]
    cases c.classKind
    · exact h.complain _ _
    · exact h.complain _ _
    · exact h.use rfl

theorem Expr.talliesAll_shift {c d : Context} (h : c.Tallies d) :
    (es : List Expr) → (Expr.resolveAll c es).Tallies (Expr.resolveAll d (Expr.shiftAll k es))
  | [] => h
  | e :: rest => Expr.talliesAll_shift (Expr.tallies_shift h e) rest

end

theorem Expr.talliesOption_shift {c d : Context} (h : c.Tallies d) (e : Option Expr) :
    (Expr.resolveOption c e).Tallies (Expr.resolveOption d (e.map (Expr.shift k))) := by
  cases e with
  | none => exact h
  | some e => exact e.tallies_shift k h

mutual

theorem Stmt.tallies_shift {c d : Context} (h : c.Tallies d) :
    (s : Stmt) → (s.resolve c).Tallies ((s.shift k).resolve d)
  | .expression e | .print e => e.tallies_shift k h
  | .var name initializer => (Expr.talliesOption_shift k (h.declare name) initializer).define _ _
  | .block body => (Stmt.talliesAll_shift h.openScope body).closeScope
  | .ifElse condition thenBranch elseBranch =>
    Stmt.talliesOption_shift (Stmt.tallies_shift (condition.tallies_shift k h) thenBranch) elseBranch
  | .whileLoop condition body =>
    (Stmt.tallies_shift (condition.tallies_shift k h).enterLoop body).leaveLoop
  | .forLoop initializer condition increment body => by
    have hclauses := Expr.talliesOption_shift k
      (Expr.talliesOption_shift k (Stmt.talliesOption_shift h.openScope initializer) condition) increment
    exact (Stmt.tallies_shift hclauses.enterLoop body).leaveLoop.closeScope
  | .function declaration => by
    have hname := (h.declare declaration.name).define declaration.name .function
    have hfunction := Function.tallies_shift .function hname declaration
    cases declaration
    exact hfunction
  | .class declaration => Class.tallies_shift h declaration
  | .return keyword value => by
    have hkeyword := h.check (c.function == .none) .returnOutsideFunction keyword
    have hvalue := hkeyword.check
      (value.isSome && (c.check (c.function == .none) .returnOutsideFunction keyword).function ==
        .initializer) .returnFromInitializer keyword
    have hsome : (value.map (Expr.shift k)).isSome = value.isSome := Option.isSome_map
    simp only [Stmt.shift, Stmt.resolve, hkeyword.function, h.function, hsome]
    exact Expr.talliesOption_shift k hvalue value
  | .break keyword => by
    simp only [Stmt.shift, Stmt.resolve, h.loopDepth]
    exact h.check _ _ _
  | .continue keyword => by
    simp only [Stmt.shift, Stmt.resolve, h.loopDepth]
    exact h.check _ _ _

theorem Stmt.talliesAll_shift {c d : Context} (h : c.Tallies d) :
    (ss : List Stmt) → (Stmt.resolveAll c ss).Tallies (Stmt.resolveAll d (Stmt.shiftAll k ss))
  | [] => h
  | s :: rest => Stmt.talliesAll_shift (Stmt.tallies_shift h s) rest

theorem Stmt.talliesOption_shift {c d : Context} (h : c.Tallies d) :
    (s : Option Stmt) → (Stmt.resolveOption c s).Tallies (Stmt.resolveOption d (Stmt.shiftOption k s))
  | none => h
  | some s => Stmt.tallies_shift h s

theorem Function.tallies_shift (kind : FunctionKind) {c d : Context} (h : c.Tallies d) :
    (f : Function) → (f.resolve kind c).Tallies ((f.shift k).resolve kind d)
  | ⟨_, params, body, _⟩ =>
    (Stmt.talliesAll_shift ((h.enterFunction kind).parameters params) body).leaveFunction h

theorem Function.talliesMethods_shift {c d : Context} (h : c.Tallies d) : (fs : List Function) →
    (Function.resolveMethods c fs).Tallies (Function.resolveMethods d (Function.shiftAll k fs))
  | [] => h
  | f :: rest => by
    have hkind : (f.shift k).methodKind = f.methodKind := by
      rw [Function.methodKind, Function.isInitializer_shift, Function.methodKind]
    rw [Function.shiftAll, Function.resolveMethods, Function.resolveMethods, hkind]
    exact Function.talliesMethods_shift (Function.tallies_shift f.methodKind h f) rest

theorem Class.tallies_shift {c d : Context} (h : c.Tallies d) :
    (declaration : Class) → (declaration.resolve c).Tallies ((declaration.shift k).resolve d)
  | ⟨name, superclass, methods, _⟩ =>
    (Function.talliesMethods_shift (h.enterClass k name superclass) methods).leaveClass k superclass h

end

/-- **A program with its numbers moved on has the same symbols and complaints.** -/
theorem resolve_shiftAll (program : List Stmt) :
    (resolve (Stmt.shiftAll k program)).symbols = (resolve program).symbols ∧
      (resolve (Stmt.shiftAll k program)).complaints = (resolve program).complaints := by
  obtain ⟨distances, h⟩ := Stmt.talliesAll_shift k (.refl .start) program
  rw [resolve, h, resolve]
  exact ⟨rfl, rfl⟩

end

end Lox
