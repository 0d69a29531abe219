import Lox.Machine.Evaluate
import Lox.Proofs.Machine.Scopes
import Lox.Proofs.Syntax.Relocation

/-!
# Values and machines of a relocated program

Functions keep the tree they were declared with, and with it the places of their tokens. Nothing else
in a machine knows where the text of a program stands.

* `Bindings.map`, `Scopes.map`: other things bound to the same names;
* `Closure.relocate`, `ClassObject.relocate`, `Value.relocate`: values with the functions of the
  relocated text, `Value.text_relocate`, …: they look the same;
* `Replica`, `Machine.replica`: the machine of the relocated text, with another table of distances
  and more printed before.
-/

namespace Lox

/-! ## Other things bound to the same names -/

namespace Bindings

variable {α β : Type} (f : α → β)

/-- The same names, bound to what `f` makes of the things they were bound to. -/
def map (b : Bindings α) : Bindings β := ⟨b.entries.map fun entry => (entry.1, f entry.2)⟩

theorem find?_map (name : String) (entries : List (String × α)) :
    find? name (entries.map fun entry => (entry.1, f entry.2)) = (find? name entries).map f := by
  induction entries with
  | nil => rfl
  | cons entry rest ih =>
    obtain ⟨key, value⟩ := entry
    rw [List.map_cons, find?, find?, ih]
    split <;> rfl

theorem put_map (name : String) (value : α) (entries : List (String × α)) :
    (put name value entries).map (fun entry => (entry.1, f entry.2)) =
      put name (f value) (entries.map fun entry => (entry.1, f entry.2)) := by
  induction entries with
  | nil => rfl
  | cons entry rest ih =>
    obtain ⟨key, old⟩ := entry
    rw [List.map_cons, put, put]
    split
    · rfl
    · rw [List.map_cons, ih]

@[simp] theorem get?_map (b : Bindings α) (name : String) : (b.map f).get? name = (b.get? name).map f :=
  find?_map f name b.entries

theorem map_insert (b : Bindings α) (name : String) (value : α) :
    (b.insert name value).map f = (b.map f).insert name (f value) :=
  congrArg mk (put_map f name value b.entries)

end Bindings

/-- Changing an element and replacing all elements can be done in either order. -/
theorem map_modify {α β : Type} (change : α → α) (change' : β → β) {f : α → β}
    (h : ∀ a, f (change a) = change' (f a)) (xs : Array α) (i : Nat) :
    (xs.modify i change).map f = (xs.map f).modify i change' := by
  refine Array.ext_getElem? fun j => ?_
  rw [Array.getElem?_map, Array.getElem?_modify, Array.getElem?_modify, Array.getElem?_map]
  split
  · cases xs[j]? with
    | none => rfl
    | some a => exact congrArg some (h a)
  · rfl

namespace Scopes

variable {α β : Type} (f : α → β) (s : Scopes α)

/-- The same scopes, with what `f` makes of the things that their names are bound to. -/
def map : Scopes β where
  toArray := s.toArray.map fun sc => ⟨sc.parent, sc.bindings.map f⟩
  parent_lt := by
    intro i p h
    rw [Array.getElem?_map, Option.bind_map] at h
    exact s.parent_lt i p h

theorem eq_of_toArray {s t : Scopes α} (h : s.toArray = t.toArray) : s = t := by
  cases s
  cases t
  cases h
  rfl

@[simp] theorem size_map : (s.map f).size = s.size := Array.size_map

@[simp] theorem parent?_map (scope : ScopeId) : (s.map f).parent? scope = s.parent? scope := by
  rw [parent?, map, Array.getElem?_map, Option.bind_map]
  rfl

@[simp] theorem own?_map (scope : ScopeId) (name : String) :
    (s.map f).own? scope name = (s.own? scope name).map f := by
  rw [own?, own?, map, Array.getElem?_map]
  cases s.toArray[scope]? with
  | none => rfl
  | some sc => exact Bindings.get?_map f _ name

theorem map_push (parent : Option ScopeId) : (s.push parent).2.map f = ((s.map f).push parent).2 := by
  refine eq_of_toArray ?_
  have hsize : (s.map f).toArray.size = s.toArray.size := Array.size_map
  show (s.toArray.push _).map _ = (s.toArray.map _).push _
  rw [Array.map_push, hsize]
  rfl

theorem map_define (scope : ScopeId) (name : String) (value : α) :
    (s.define scope name value).map f = (s.map f).define scope name (f value) :=
  eq_of_toArray (map_modify
    (fun sc : Scope α => { sc with bindings := sc.bindings.insert name value })
    (fun sc : Scope β => { sc with bindings := sc.bindings.insert name (f value) })
    (fun sc => congrArg (Scope.mk sc.parent) (Bindings.map_insert f sc.bindings name value)) _ _)

@[simp] theorem holder?_map (scope : ScopeId) (name : String) :
    (s.map f).holder? scope name = s.holder? scope name := by
  fun_induction s.holder? scope name with
  | case1 scope h => rw [holder?, own?_map, Option.isSome_map, if_pos h]
  | case2 scope h hp =>
    rw [holder?, own?_map, Option.isSome_map, if_neg h]
    split
    · rfl
    · rename_i outer ho
      rw [parent?_map, hp] at ho
      cases ho
  | case3 scope h outer hp ih =>
    rw [holder?, own?_map, Option.isSome_map, if_neg h]
    split
    · rename_i ho
      rw [parent?_map, hp] at ho
      cases ho
    · rename_i outer' ho
      rw [parent?_map, hp, Option.some.injEq] at ho
      rw [← ho]
      exact ih

@[simp] theorem ancestor_map (scope : ScopeId) (distance : Nat) :
    (s.map f).ancestor scope distance = s.ancestor scope distance := by
  induction distance generalizing scope with
  | zero => rfl
  | succ distance ih => simp only [ancestor, parent?_map, ih]

@[simp] theorem holderAt?_map (scope : ScopeId) (distance : Nat) (name : String) :
    (s.map f).holderAt? scope distance name = s.holderAt? scope distance name := by
  simp only [holderAt?, ancestor_map, own?_map, Option.isSome_map]

@[simp] theorem getAt_map (scope : ScopeId) (distance : Nat) (name : String) :
    (s.map f).getAt scope distance name = (s.getAt scope distance name).map f := by
  rw [getAt, getAt, ancestor_map]
  cases s.ancestor scope distance with
  | none => rfl
  | some holder => exact own?_map f s holder name

end Scopes

/-! ## Values -/

variable (r : Relocation)

/-- The function of the relocated text. -/
def Closure.relocate (c : Closure) : Closure := { c with declaration := c.declaration.relocate r }

/-- The class of the relocated text. -/
def ClassObject.relocate : ClassObject → ClassObject
  | ⟨id, name, none, methods⟩ => ⟨id, name, none, methods.map (Closure.relocate r)⟩
  | ⟨id, name, some parent, methods⟩ =>
    ⟨id, name, some parent.relocate, methods.map (Closure.relocate r)⟩

/-- The value of the relocated text. -/
def Value.relocate : Value → Value
  | .function id c => .function id (c.relocate r)
  | .class c => .class (c.relocate r)
  | .instance id c => .instance id (c.relocate r)
  | v => v

namespace Closure

variable (c : Closure)

@[simp] theorem name_relocate : (c.relocate r).name = c.name := by
  simp [name, relocate]

@[simp] theorem arity_relocate : (c.relocate r).arity = c.arity := by
  simp [arity, relocate]

end Closure

namespace ClassObject

theorem relocate_mk (id : ObjectId) (name : String) (superclass : Option ClassObject)
    (methods : Bindings Closure) : relocate r ⟨id, name, superclass, methods⟩ =
      ⟨id, name, superclass.map (relocate r), methods.map (Closure.relocate r)⟩ := by
  cases superclass with
  | none => rw [relocate]; rfl
  | some parent => rw [relocate]; rfl

@[simp] theorem id_relocate (c : ClassObject) : (c.relocate r).id = c.id := by
  cases c
  rw [relocate_mk]

@[simp] theorem name_relocate (c : ClassObject) : (c.relocate r).name = c.name := by
  cases c
  rw [relocate_mk]

theorem method?_relocate (name : String) : (c : ClassObject) →
    (c.relocate r).method? name = (c.method? name).map (Closure.relocate r)
  | ⟨id, cname, none, methods⟩ => by
    unfold method?
    rw [relocate_mk]
    dsimp only
    rw [Bindings.get?_map]
    cases methods.get? name <;> rfl
  | ⟨id, cname, some parent, methods⟩ => by
    unfold method?
    rw [relocate_mk]
    dsimp only
    rw [Bindings.get?_map]
    cases methods.get? name with
    | some found => rfl
    | none => exact method?_relocate name parent

theorem initializer?_relocate (c : ClassObject) :
    (c.relocate r).initializer? = c.initializer?.map (Closure.relocate r) :=
  method?_relocate r _ c

@[simp] theorem arity_relocate (c : ClassObject) : (c.relocate r).arity = c.arity := by
  rw [arity, initializer?_relocate, Option.map_map, arity]
  congr 2
  funext f
  exact Closure.arity_relocate r f

end ClassObject

namespace Value

variable (v w : Value)

@[simp] theorem kind_relocate : (v.relocate r).kind = v.kind := by cases v <;> rfl

@[simp] theorem truthy_relocate : (v.relocate r).truthy = v.truthy := by cases v <;> rfl

@[simp] theorem text_relocate : (v.relocate r).text = v.text := by
  cases v <;> simp [relocate, text]

@[simp] theorem equals_relocate : (v.relocate r).equals (w.relocate r) = v.equals w := by
  cases v <;> cases w <;> simp [relocate, equals]

end Value

@[simp] theorem Literal.value_relocate (constant : Literal) :
    constant.value.relocate r = constant.value := by
  cases constant <;> rfl

theorem UnaryOp.apply_relocate (op : UnaryOp) (v : Value) :
    op.apply (v.relocate r) = (op.apply v).map (Value.relocate r) := by
  cases op <;> cases v <;> rfl

theorem BinaryOp.applyNumbers_relocate (op : BinaryOp) (a b : Float) :
    (op.applyNumbers a b).map (Value.relocate r) = op.applyNumbers a b := by
  cases op with
  | divide =>
    rw [applyNumbers]
    split <;> rfl
  | _ => rfl

theorem BinaryOp.onNumbers_relocate (op : BinaryOp) (v w : Value) :
    op.onNumbers (v.relocate r) (w.relocate r) = (op.onNumbers v w).map (Value.relocate r) := by
  cases v with
  | number a =>
    cases w with
    | number b => exact (applyNumbers_relocate r op a b).symm
    | _ => rfl
  | _ => rfl

theorem BinaryOp.apply_relocate (op : BinaryOp) (v w : Value) :
    op.apply (v.relocate r) (w.relocate r) = (op.apply v w).map (Value.relocate r) := by
  cases op with
  | equal => exact congrArg (fun b => Except.ok (Value.boolean b)) (v.equals_relocate r w)
  | notEqual => exact congrArg (fun b => Except.ok (Value.boolean !b)) (v.equals_relocate r w)
  | add => cases v <;> cases w <;> rfl
  | _ => exact onNumbers_relocate r _ v w

theorem LogicalOp.decidedBy_relocate (op : LogicalOp) (v : Value) :
    op.decidedBy (v.relocate r) = op.decidedBy v := by
  cases op <;> simp [decidedBy]

/-- How a statement of the relocated text ended. -/
def Completion.relocate : Completion → Completion
  | .return v => .return (v.relocate r)
  | ended => ended

theorem methodTable_relocate (scope : ScopeId) (methods : List Function) :
    Eval.methodTable scope (methods.map (Function.relocate r)) =
      (Eval.methodTable scope methods).map (Closure.relocate r) := by
  unfold Eval.methodTable
  have hrows (table : Bindings Closure) :
      (methods.map (Function.relocate r)).foldl
          (fun table f => table.insert f.name.lexeme ⟨f, scope, f.isInitializer⟩)
          (table.map (Closure.relocate r)) =
        (methods.foldl (fun table f => table.insert f.name.lexeme ⟨f, scope, f.isInitializer⟩)
          table).map (Closure.relocate r) := by
    induction methods generalizing table with
    | nil => rfl
    | cons f rest ih =>
      rw [List.map_cons, List.foldl_cons, List.foldl_cons, ← ih, Bindings.map_insert,
        Function.name_relocate, Function.isInitializer_relocate]
      rfl
  exact hrows .empty

/-! ## Machines -/

/-- How the machine of a relocated text differs: in the places of the text, in the known distances,
and in what was printed before. -/
structure Replica where
  places : Relocation
  distances : Distances
  printed : Array String

/-- The machine of the relocated text. -/
def Machine.replica (g : Replica) (m : Machine) : Machine :=
  { m with
    scopes := m.scopes.map (Value.relocate g.places)
    fields := m.fields.map (Bindings.map (Value.relocate g.places))
    distances := g.distances
    printed := g.printed ++ m.printed }

end Lox
