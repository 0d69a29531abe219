import Lox.Proofs.Machine.Mirror
import Lox.Proofs.Machine.Watch

/-!
# Which activity opens which scope

A run opens scopes in four ways: for a block, for the clauses of a `for` statement, for the body of
a function, and for the words `this` and `super`. Each of them belongs to the activity that does it.

* `Instance`: a scope is the instance of a region inside another scope;
* `Expr.Opens`, `Stmt.Opens`, `Value.Opens`: the scopes that an expression, a statement and a call
  open themselves, and not through their parts;
* `Activity.Opens`: the scopes that an activity opens, `Labelled`: the origins tell of them.
-/

namespace Lox

/-- A scope is the instance of a region of a certain kind, inside the scope `outer`. -/
def Instance (o : Origins) (scope outer : ScopeId) (kind : Region → Prop) : Prop :=
  ∃ region chain, kind region ∧ o[outer]? = some chain ∧ o[scope]? = some (region :: chain)

/-- The scope of `this` around a method of a class. -/
def Region.IsThisOf (method : Function) (region : Region) : Prop :=
  ∃ c : Class, region = .this c ∧ method ∈ c.methods

/-- The scope that an expression itself opens: one for `this`, when a method is bound. -/
inductive Expr.Opens (eval : Expr → Eval Value) (m : Machine) :
    Expr → ScopeId → ScopeId → (Region → Prop) → Prop where
  | get {object name id c f m'} : eval object m = .ok (.instance id c) m' →
      (m'.fields[id]?).bind (·.get? name.lexeme) = none → c.method? name.lexeme = some f →
      Expr.Opens eval m (.get object name) m'.scopes.size f.scope (Region.IsThisOf f.declaration)
  | super {keyword method d superclass this f} : m.distances[keyword.id]? = some (d + 1) →
      m.scopes.getAt m.current (d + 1) Keyword.super.spelling = some (.class superclass) →
      m.scopes.getAt m.current d Keyword.this.spelling = some this →
      superclass.method? method.lexeme = some f →
      Expr.Opens eval m (.super keyword method) m.scopes.size f.scope
        (Region.IsThisOf f.declaration)

/-- The scope that a statement itself opens. -/
inductive Stmt.Opens (m : Machine) : Stmt → ScopeId → ScopeId → (Region → Prop) → Prop where
  | block {body} : Stmt.Opens m (.block body) m.scopes.size m.current (· = .block body)
  | clauses {initializer condition increment body} :
      Stmt.Opens m (.forLoop initializer condition increment body) m.scopes.size m.current
        (· = .clauses initializer condition increment body)
  | super {c use parent} : c.superclass = some use → Eval.read use m = .ok (.class parent) m →
      Stmt.Opens m (.class c) m.scopes.size m.current (· = .super c)

/-- The scopes that a call itself opens: one for the body of the function, and around the body of an
initializer one for `this`. -/
inductive Value.Opens (m : Machine) :
    Value → List Value → ScopeId → ScopeId → (Region → Prop) → Prop where
  | function {id c arguments} : arguments.length = c.arity →
      Value.Opens m (.function id c) arguments m.scopes.size c.scope (· = .function c.declaration)
  | this {c f arguments} : arguments.length = c.arity → c.initializer? = some f →
      Value.Opens m (.class c) arguments m.scopes.size f.scope (Region.IsThisOf f.declaration)
  | initializer {c f arguments} : arguments.length = c.arity → c.initializer? = some f →
      Value.Opens m (.class c) arguments (m.scopes.size + 1) m.scopes.size
        (· = .function f.declaration)

/-- The scopes that an activity itself opens. -/
def Activity.Opens (m : Machine) : Activity → ScopeId → ScopeId → (Region → Prop) → Prop
  | .evaluate fuel e => e.Opens (Eval.evaluate (fuel - 1)) m
  | .execute _ s => s.Opens m
  | .call _ callee arguments _ => callee.Opens m arguments
  | .program _ _ => fun _ _ _ => False

/-- The scopes that are opened are instances of what opens them. -/
def Labelled (o : Origins) (opens : ScopeId → ScopeId → (Region → Prop) → Prop) : Prop :=
  ∀ scope outer kind, opens scope outer kind → Instance o scope outer kind

section

variable {o o' : Origins} {scope outer : ScopeId} {kind : Region → Prop}

theorem Instance.mono (h : Instance o scope outer kind) (hp : o <+: o') :
    Instance o' scope outer kind := by
  obtain ⟨region, chain, hkind, houter, hscope⟩ := h
  have keep {k : ScopeId} {r : List Region} (hk : o[k]? = some r) : o'[k]? = some r := by
    obtain ⟨hlt, rfl⟩ := List.getElem?_eq_some_iff.mp hk
    exact List.prefix_iff_getElem?.mp hp k hlt
  exact ⟨region, chain, hkind, keep houter, keep hscope⟩

theorem Labelled.mono {opens : ScopeId → ScopeId → (Region → Prop) → Prop} (h : Labelled o opens)
    (hp : o <+: o') : Labelled o' opens :=
  fun scope outer kind hopens => (h scope outer kind hopens).mono hp

theorem Mirrors.instance {m : Machine} {f : Frame} {frames : List Frame}
    (h : Mirrors m o scope (f :: frames)) (ho : o[outer]? = some (frames.map Frame.region))
    (hkind : kind f.region) : Instance o scope outer kind :=
  ⟨f.region, _, hkind, ho, h.origin⟩

end

end Lox
