import Lox.Binding.Resolve

/-!
# The sites of a program

Where an expression or statement stands is said without walking the program as the resolver does:
by the scopes around it and the names that a run has bound in each of them when it gets there.

* `Region`: what opens a scope, `Frame`: a scope around a place and the names bound in it by then;
* `Site`: the frames, the enclosing function and class, the open loops;
* `Site.distance?`: how many scopes lie between a place and the nearest scope with a name;
* `Mark`: what the static rules and the run look at, `Expr.marks`, `Stmt.sites`: the marks of a
  part of a program, each with its place.
-/

namespace Lox

/-- The scopes of a program, by what opens them. -/
inductive Region where
  | top
  | block (body : List Stmt)
  | clauses (initializer : Option Stmt) (condition increment : Option Expr) (body : Stmt)
  /-- The parameters and the body of a function. -/
  | function (declaration : Function)
  /-- The scope in which the methods of a class find `this`. -/
  | this (declaration : Class)
  /-- The scope in which the methods of a class find `super`. -/
  | super (declaration : Class)

/-- A scope around a place, and the names bound in it before the place is reached. -/
structure Frame where
  region : Region
  names : List String

/-- A place of a program. -/
structure Site where
  /-- The scopes around the place, the innermost one first. -/
  frames : List Frame
  function : FunctionKind
  classKind : ClassKind
  /-- How many loops of the enclosing function are open. -/
  loopDepth : Nat
  /-- The variable in whose initializer the place stands. -/
  opening : Option String

namespace Site

/-- The beginning of a program. -/
def start : Site := ⟨[⟨.top, []⟩], .none, .none, 0, none⟩

/-- What opened the scopes around a place. -/
def regions (p : Site) : List Region := p.frames.map Frame.region

/-- How many scopes lie between a place and the nearest scope in which a name is bound. -/
def distance? (p : Site) (name : String) : Option Nat :=
  p.frames.findIdx? fun f => f.names.contains name

/-- How many scopes lie between a place and the nearest scope that declares a name. The innermost
scope declares the variable in whose initializer the place stands. -/
def target? (p : Site) (name : String) : Option Nat :=
  if p.opening = some name then some 0 else p.distance? name

/-- The place behind the declaration of a name. -/
def declare (p : Site) (name : String) : Site :=
  match p.frames with
  | [] => p
  | f :: outer => { p with frames := { f with names := name :: f.names } :: outer }

/-- The place in a new scope. -/
def enter (p : Site) (region : Region) (names : List String) : Site :=
  { p with frames := ⟨region, names⟩ :: p.frames }

/-- The place in the body of a loop. -/
def enterLoop (p : Site) : Site := { p with loopDepth := p.loopDepth + 1 }

/-- The place in the initializer of a variable. -/
def initializing (p : Site) (name : String) : Site := { p with opening := some name }

/-- The place in the body of a function. -/
def enterFunction (p : Site) (kind : FunctionKind) (f : Function) : Site :=
  { p.enter (.function f) (f.params.map Token.lexeme) with function := kind, loopDepth := 0 }

/-- The place around the scope of `this`, with the scope of `super` if the class has one. -/
def enterSuper (p : Site) (c : Class) : Site :=
  match c.superclass with
  | none => { p with classKind := .plain }
  | some _ => { p.enter (.super c) [Keyword.super.spelling] with classKind := .subclass }

/-- The place in the body of a class. -/
def enterClass (p : Site) (c : Class) : Site :=
  ((p.declare c.name.lexeme).enterSuper c).enter (.this c) [Keyword.this.spelling]

end Site

/-- The name that a statement declares. -/
def Stmt.declared? : Stmt → Option Token
  | .var name _ => some name
  | .function declaration => some declaration.name
  | .class declaration => some declaration.name
  | _ => none

namespace Site

/-- The place behind a statement. -/
def after (p : Site) (s : Stmt) : Site :=
  match s.declared? with
  | some name => p.declare name.lexeme
  | none => p

/-- The place behind several statements. -/
def afterAll (p : Site) : List Stmt → Site
  | [] => p
  | s :: rest => (p.after s).afterAll rest

/-- The place behind a statement that may be missing. -/
def afterOption (p : Site) : Option Stmt → Site
  | none => p
  | some s => p.after s

end Site

/-! ## Marks -/

/-- What the static rules and the run of a program look at. -/
inductive Mark where
  | statement (s : Stmt)
  /-- A binding is read: of a variable, of `this` or of `super`. -/
  | read (use : Occurrence)
  | write (target : Occurrence)
  /-- A method is looked up from the superclass on, for the instance that `this` is. -/
  | super (keyword : Occurrence)
  /-- A name that the program itself gives. -/
  | name (token : Token)
  | «return»
  | «break»
  | «continue»

mutual

/-- The marks of an expression. -/
def Expr.marks : Expr → List Mark
  | .literal _ => []
  | .grouping inner => inner.marks
  | .unary _ _ operand => operand.marks
  | .binary left _ _ right => left.marks ++ right.marks
  | .logical left _ _ right => left.marks ++ right.marks
  | .variable use => [.read use]
  | .assign target value => .write target :: .name target.name :: value.marks
  | .call callee arguments _ => callee.marks ++ Expr.marksAll arguments
  | .get object _ => object.marks
  | .set object _ value => object.marks ++ value.marks
  | .this keyword => [.read keyword]
  | .super keyword _ => [.read keyword, .super keyword]

/-- The marks of several expressions. -/
def Expr.marksAll : List Expr → List Mark
  | [] => []
  | e :: rest => e.marks ++ Expr.marksAll rest

end

namespace Site

/-- Marks that stand at one place. -/
def mark (p : Site) (marks : List Mark) : List (Site × Mark) := marks.map (p, ·)

end Site

/-- The marks of an expression at a place. -/
def Expr.sites (p : Site) (e : Expr) : List (Site × Mark) := p.mark e.marks

/-- The marks of an expression that may be missing. -/
def Expr.sitesOption (p : Site) : Option Expr → List (Site × Mark)
  | none => []
  | some e => e.sites p

/-- The marks of the superclass of a class, which is read before the class is declared. -/
def Occurrence.sitesOption (p : Site) : Option Occurrence → List (Site × Mark)
  | none => []
  | some use => [(p, .read use)]

mutual

/-- The marks of a statement that begins at a place. -/
def Stmt.sites (p : Site) (s : Stmt) : List (Site × Mark) :=
  (p, .statement s) ::
    match s with
    | .expression e => e.sites p
    | .print e => e.sites p
    | .var name initializer =>
      (p, .name name) :: Expr.sitesOption (p.initializing name.lexeme) initializer
    | .block body => Stmt.sitesAll (p.enter (.block body) []) body
    | .ifElse condition thenBranch elseBranch =>
      condition.sites p ++ thenBranch.sites p ++ Stmt.sitesOption p elseBranch
    | .whileLoop condition body => condition.sites p ++ body.sites p.enterLoop
    | .forLoop initializer condition increment body =>
      let inner := p.enter (.clauses initializer condition increment body) []
      let behind := inner.afterOption initializer
      Stmt.sitesOption inner initializer ++ Expr.sitesOption behind condition ++
        Expr.sitesOption behind increment ++ body.sites behind.enterLoop
    | .function declaration =>
      (p, .name declaration.name) ::
        declaration.sites .function (p.declare declaration.name.lexeme)
    | .class declaration => declaration.sites p
    | .return _ value => (p, .return) :: Expr.sitesOption p value
    | .break _ => [(p, .break)]
    | .continue _ => [(p, .continue)]

/-- The marks of several statements that follow one another. -/
def Stmt.sitesAll (p : Site) : List Stmt → List (Site × Mark)
  | [] => []
  | s :: rest => s.sites p ++ Stmt.sitesAll (p.after s) rest

/-- The marks of a statement that may be missing. -/
def Stmt.sitesOption (p : Site) : Option Stmt → List (Site × Mark)
  | none => []
  | some s => s.sites p

/-- The marks of the parameters and the body of a function that is declared at a place. -/
def Function.sites (kind : FunctionKind) (p : Site) : Function → List (Site × Mark)
  | ⟨name, params, body, span⟩ =>
    let inner := p.enterFunction kind ⟨name, params, body, span⟩
    inner.mark (params.map .name) ++ Stmt.sitesAll inner body

/-- The marks of the methods of a class, whose body begins at a place. -/
def Function.sitesMethods (p : Site) : List Function → List (Site × Mark)
  | [] => []
  | f :: rest =>
    f.sites f.methodKind p ++
      Function.sitesMethods p rest

/-- The marks of a class that is declared at a place. -/
def Class.sites (p : Site) : Class → List (Site × Mark)
  | ⟨name, superclass, methods, span⟩ =>
    (p, .name name) :: (Occurrence.sitesOption p superclass ++
      Function.sitesMethods (p.enterClass ⟨name, superclass, methods, span⟩) methods)

end

/-- The marks of a whole program. -/
def programSites (program : List Stmt) : List (Site × Mark) := Stmt.sitesAll .start program

end Lox
