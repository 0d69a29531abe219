import Lox.Bindings

/-!
# Scopes at run time

All scopes that a program ever opens stand in one array, in the order in which they were opened.
A scope knows the scope around it, which was opened before it, so that every chain of scopes ends.

* `Scope`, `Scopes`: a scope and the array of all of them;
* `Scopes.push`, `Scopes.define`: opening a scope and binding a name in one;
* `Scopes.search`, `Scopes.assign`: reading and writing a name along the chain of a scope;
* `Scopes.ancestor`, `Scopes.getAt`, `Scopes.assignAt`: reading and writing at a given distance.
-/

namespace Lox

/-- The place of a scope in the array of all scopes. -/
abbrev ScopeId := Nat

/-- The names of a scope and the scope around it. -/
structure Scope (α : Type) where
  parent : Option ScopeId
  bindings : Bindings α

/-- All scopes, in the order in which they were opened. -/
structure Scopes (α : Type) where
  toArray : Array (Scope α)
  parent_lt : ∀ i p, (toArray[i]?.bind Scope.parent) = some p → p < i

namespace Scopes

variable {α : Type}

/-- No scope was opened. -/
def empty : Scopes α := ⟨#[], by simp⟩

/-- The number of scopes. -/
def size (s : Scopes α) : Nat := s.toArray.size

/-- The scope around a scope. -/
def parent? (s : Scopes α) (scope : ScopeId) : Option ScopeId :=
  s.toArray[scope]?.bind Scope.parent

/-- What a scope itself binds a name to. -/
def own? (s : Scopes α) (scope : ScopeId) (name : String) : Option α :=
  s.toArray[scope]?.bind fun sc => sc.bindings.get? name

/-- Open a scope. A scope that is said to lie inside one that does not exist lies in none. -/
def push (s : Scopes α) (parent : Option ScopeId) : ScopeId × Scopes α :=
  let parent := parent.filter (· < s.toArray.size)
  (s.toArray.size, {
    toArray := s.toArray.push ⟨parent, .empty⟩
    parent_lt := by
      intro i p h
      rw [Array.getElem?_push] at h
      split at h
      · subst i
        simp only [Option.bind_some, parent, Option.filter_eq_some_iff] at h
        simpa using h.2
      · exact s.parent_lt i p h })

/-- Change the names of one scope. -/
def modify (s : Scopes α) (scope : ScopeId) (f : Bindings α → Bindings α) : Scopes α where
  toArray := s.toArray.modify scope fun sc => { sc with bindings := f sc.bindings }
  parent_lt := by
    intro i p h
    rw [Array.getElem?_modify] at h
    split at h
    · apply s.parent_lt i p
      cases hi : s.toArray[i]? <;> simp_all
    · exact s.parent_lt i p h

/-- Bind a name in a scope. -/
def define (s : Scopes α) (scope : ScopeId) (name : String) (value : α) : Scopes α :=
  s.modify scope (·.insert name value)

/-- The innermost scope of a chain that binds a name. -/
def holder? (s : Scopes α) (scope : ScopeId) (name : String) : Option ScopeId :=
  if (s.own? scope name).isSome then some scope
  else
    match _h : s.parent? scope with
    | none => none
    | some outer => holder? s outer name
termination_by scope
decreasing_by exact s.parent_lt scope outer (by assumption)

/-- What a name is bound to in the innermost scope of a chain that binds it. -/
def search (s : Scopes α) (scope : ScopeId) (name : String) : Option α := do
  s.own? (← s.holder? scope name) name

/-- Write a name in the innermost scope of a chain that binds it, if there is one. -/
def assign (s : Scopes α) (scope : ScopeId) (name : String) (value : α) : Option (Scopes α) :=
  (s.holder? scope name).map fun holder => s.define holder name value

/-- The scope exactly `distance` links out. -/
def ancestor (s : Scopes α) (scope : ScopeId) : Nat → Option ScopeId
  | 0 => some scope
  | distance + 1 => (s.parent? scope).bind fun outer => s.ancestor outer distance

/-- What the scope exactly `distance` links out binds a name to. -/
def getAt (s : Scopes α) (scope : ScopeId) (distance : Nat) (name : String) : Option α := do
  s.own? (← s.ancestor scope distance) name

/-- The scope exactly `distance` links out, if it binds the name. -/
def holderAt? (s : Scopes α) (scope : ScopeId) (distance : Nat) (name : String) : Option ScopeId :=
  (s.ancestor scope distance).filter fun holder => (s.own? holder name).isSome

/-- Write a name in the scope exactly `distance` links out, if that scope binds it. -/
def assignAt (s : Scopes α) (scope : ScopeId) (distance : Nat) (name : String) (value : α) :
    Option (Scopes α) :=
  (s.holderAt? scope distance name).map fun holder => s.define holder name value

end Scopes

end Lox
