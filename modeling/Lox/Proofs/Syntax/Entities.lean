import Lox.Proofs.Syntax.Namings

/-!
# The declarations of a tree

* `Entity`: a declaration somewhere in a program; `Stmt.entities`, …: those in a part of a program,
  each in front of those that lie inside it;
* `Stmt.classesAll`: the classes among them;
* **`Stmt.declaration?_entitiesAll`**: without methods they are what the program declares, without its
  parameters.
-/

namespace Lox

/-- A declaration somewhere in a program. -/
inductive Entity where
  | «variable» (name : Token)
  | function (f : Function)
  | method (f : Function)
  | «class» (k : Class)

namespace Entity

/-- The name that a declaration binds in its scope. A method binds none. -/
def declaration? : Entity → Option (Token × SymbolKind)
  | .variable name => some (name, .variable)
  | .function f => some (f.name, .function)
  | .method _ => none
  | .class k => some (k.name, .class)

/-- The class that is declared. -/
def class? : Entity → Option Class
  | .class k => some k
  | _ => none

end Entity

mutual

/-- The declarations in a statement. -/
def Stmt.entities : Stmt → List Entity
  | .expression _ => []
  | .print _ => []
  | .var name _ => [.variable name]
  | .block body => Stmt.entitiesAll body
  | .ifElse _ thenBranch elseBranch => thenBranch.entities ++ Stmt.entitiesOption elseBranch
  | .whileLoop _ body => body.entities
  | .forLoop initializer _ _ body => Stmt.entitiesOption initializer ++ body.entities
  | .function declaration => .function declaration :: declaration.entities
  | .class declaration => .class declaration :: declaration.entities
  | .return _ _ => []
  | .break _ => []
  | .continue _ => []

/-- The declarations in several statements. -/
def Stmt.entitiesAll : List Stmt → List Entity
  | [] => []
  | s :: rest => s.entities ++ Stmt.entitiesAll rest

/-- The declarations in a statement that may be missing. -/
def Stmt.entitiesOption : Option Stmt → List Entity
  | none => []
  | some s => s.entities

/-- The declarations inside a function. -/
def Function.entities : Function → List Entity
  | ⟨_, _, body, _⟩ => Stmt.entitiesAll body

/-- Methods and the declarations inside them. -/
def Function.entitiesMethods : List Function → List Entity
  | [] => []
  | f :: rest => .method f :: (f.entities ++ Function.entitiesMethods rest)

/-- The declarations inside a class. -/
def Class.entities : Class → List Entity
  | ⟨_, _, methods, _⟩ => Function.entitiesMethods methods

end

/-- The classes in a program. -/
def Stmt.classesAll (program : List Stmt) : List Class :=
  (Stmt.entitiesAll program).filterMap Entity.class?

/-! ## What they declare -/

theorem filter_parameters (params : List Token) :
    (params.map (·, SymbolKind.parameter)).filter (·.2 ≠ .parameter) = [] := by
  simp [List.filter_eq_nil_iff]

mutual

theorem Stmt.declaration?_entities : (s : Stmt) →
    s.entities.filterMap Entity.declaration? = s.introduced.filter (·.2 ≠ .parameter)
  | .expression e | .print e => by
    rw [Stmt.introduced, Stmt.namings, e.declaration?_namings]
    rfl
  | .var name initializer => by
    rw [Stmt.introduced_var]
    rfl
  | .block body => Stmt.declaration?_entitiesAll body
  | .ifElse condition thenBranch elseBranch => by
    rw [Stmt.entities, List.filterMap_append, thenBranch.declaration?_entities,
      Stmt.declaration?_entitiesOption elseBranch, Stmt.introduced_ifElse, List.filter_append]
  | .whileLoop condition body => by
    rw [Stmt.introduced_whileLoop]
    exact body.declaration?_entities
  | .forLoop initializer condition increment body => by
    rw [Stmt.entities, List.filterMap_append, Stmt.declaration?_entitiesOption initializer,
      body.declaration?_entities, Stmt.introduced_forLoop, List.filter_append]
  | .function declaration =>
    congrArg ((declaration.name, SymbolKind.function) :: ·) declaration.declaration?_entities
  | .class declaration => declaration.declaration?_entities
  | .return _ value => by
    rw [Stmt.introduced, Stmt.namings, Expr.declaration?_namingsOption]
    rfl
  | .break _ | .continue _ => rfl

/-- **What a program declares**, its parameters apart, are its declarations, methods apart. -/
theorem Stmt.declaration?_entitiesAll : (ss : List Stmt) →
    (Stmt.entitiesAll ss).filterMap Entity.declaration? =
      (Stmt.introducedAll ss).filter (·.2 ≠ .parameter)
  | [] => rfl
  | s :: rest => by
    rw [Stmt.entitiesAll, List.filterMap_append, s.declaration?_entities,
      Stmt.declaration?_entitiesAll rest, Stmt.introducedAll_cons, List.filter_append]

theorem Stmt.declaration?_entitiesOption : (s : Option Stmt) →
    (Stmt.entitiesOption s).filterMap Entity.declaration? =
      (Stmt.introducedOption s).filter (·.2 ≠ .parameter)
  | none => rfl
  | some s => s.declaration?_entities

theorem Function.declaration?_entities : (f : Function) →
    f.entities.filterMap Entity.declaration? = f.introduced.filter (·.2 ≠ .parameter)
  | ⟨_, params, body, _⟩ => by
    rw [Function.entities, Stmt.declaration?_entitiesAll body, Function.introduced_mk,
      List.filter_append, filter_parameters, List.nil_append]

theorem Function.declaration?_entitiesMethods : (fs : List Function) →
    (Function.entitiesMethods fs).filterMap Entity.declaration? =
      (Function.introducedMethods fs).filter (·.2 ≠ .parameter)
  | [] => rfl
  | f :: rest => by
    rw [Function.introducedMethods_cons, List.filter_append, ← f.declaration?_entities,
      ← Function.declaration?_entitiesMethods rest, ← List.filterMap_append]
    rfl

theorem Class.declaration?_entities : (k : Class) →
    (Entity.class k :: k.entities).filterMap Entity.declaration? =
      k.introduced.filter (·.2 ≠ .parameter)
  | ⟨name, superclass, methods, _⟩ => by
    rw [Class.introduced_mk]
    exact congrArg ((name, SymbolKind.class) :: ·) (Function.declaration?_entitiesMethods methods)

end

end Lox
