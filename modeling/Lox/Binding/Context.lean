import Lox.Bindings
import Lox.Binding.SymbolGraph
import Lox.Syntax.Tree
import Lox.Report.Problem

/-!
# What is known at a place of a program

* `Binding`: the state of a name in a scope;
* `FunctionKind`, `ClassKind`: what kind of function and class a place stands in;
* `Context`: the open scopes, the enclosing function, class and loops, and what was found so far;
* `declare`, `define`, `use`: declaring a name, making it usable, and recording a use of it.
-/

namespace Lox

/-- The state of a name in a scope. -/
inductive Binding where
  /-- Declared, with the initializer still being read. -/
  | uninitialized
  | declared (token : TokenId)
  /-- `this` or `super`, which no token of the program declares. -/
  | implicit
  deriving DecidableEq, Repr

/-- What kind of function body a place stands in. -/
inductive FunctionKind where
  | none
  | function
  | initializer
  | method
  deriving DecidableEq, Repr

/-- What kind of class body a place stands in. -/
inductive ClassKind where
  | none
  | plain
  | subclass
  deriving DecidableEq, Repr

/-- For each resolved occurrence, how many scopes lie between it and the scope of its binding. -/
abbrev Distances := Std.TreeMap ExprId Nat

/-- The names of one scope. -/
abbrev ScopeNames := Bindings Binding

/-- What is known at a place of a program. -/
structure Context where
  /-- The open scopes, the innermost one first. -/
  scopes : List ScopeNames
  function : FunctionKind
  classKind : ClassKind
  /-- How many loops of the enclosing function are open. -/
  loopDepth : Nat
  distances : Distances
  symbols : SymbolGraph
  /-- The problems noted so far, the last one first. -/
  complaints : List Complaint

namespace Context

/-- The beginning of a program, where the top level is the only scope. -/
def start : Context := ⟨[.empty], .none, .none, 0, ∅, .empty, []⟩

/-- Note a problem at a token. -/
def complain (c : Context) (problem : StaticProblem) (place : Token) : Context :=
  { c with complaints := ⟨.static problem, place.position⟩ :: c.complaints }

/-- Note a problem at a token if `broken` holds. -/
def check (c : Context) (broken : Bool) (problem : StaticProblem) (place : Token) : Context :=
  if broken then c.complain problem place else c

/-- Open a scope. -/
def openScope (c : Context) : Context := { c with scopes := .empty :: c.scopes }

/-- Close the innermost scope. -/
def closeScope (c : Context) : Context := { c with scopes := c.scopes.tail }

/-- The state of a name in the innermost scope. -/
def innermost? (c : Context) (name : String) : Option Binding :=
  c.scopes.head?.bind (·.get? name)

/-- Give a name a state in the innermost scope. -/
def bind (c : Context) (name : String) (binding : Binding) : Context :=
  match c.scopes with
  | [] => c
  | scope :: outer => { c with scopes := scope.insert name binding :: outer }

/-- Declare a name in the innermost scope; it must be new there. -/
def declare (c : Context) (name : Token) : Context :=
  (c.check (c.innermost? name.lexeme).isSome .alreadyDeclared name).bind name.lexeme .uninitialized

/-- Make a declared name usable. -/
def define (c : Context) (name : Token) (kind : SymbolKind) : Context :=
  match c.scopes with
  | [] => c
  | _ :: _ => { c.bind name.lexeme (.declared name.id) with symbols := c.symbols.define name kind }

/-- The innermost scope with a name, given by its distance, and the state of the name there. -/
def find? (name : String) : List ScopeNames → Option (Nat × Binding)
  | [] => none
  | scope :: outer =>
    match scope.get? name with
    | some binding => some (0, binding)
    | none => (find? name outer).map fun (distance, binding) => (distance + 1, binding)

/-- Record a use of a name. A name that no open scope declares is left to the globals. -/
def use (c : Context) (occurrence : Occurrence) : Context :=
  match find? occurrence.name.lexeme c.scopes with
  | none => c
  | some (distance, binding) =>
    let c := { c with distances := c.distances.insert occurrence.id distance }
    match binding with
    | .declared token => { c with symbols := c.symbols.refer token occurrence.name }
    | _ => c

end Context

end Lox
