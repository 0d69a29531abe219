import Lox.Bindings
import Lox.Machine.Failure
import Lox.Machine.Scopes

/-!
# Values

Functions, classes and instances are objects: two of them are the same only if they were made at
the same moment, which their number tells.

* `Closure`: a function with the scope it was declared in;
* `ClassObject`: a class, `ClassObject.method?`: the method of the nearest class of its chain;
* `Value`: the values, with their `kind`, `truthy`, `equals` and `text`.
-/

namespace Lox

/-- The number of an object. -/
abbrev ObjectId := Nat

/-- The place of the fields of an instance among those of all instances. -/
abbrev InstanceId := Nat

/-- A declared function with the scope it was declared in. -/
structure Closure where
  declaration : Function
  scope : ScopeId
  /-- A call yields the instance whatever the body returns. -/
  isInitializer : Bool

namespace Closure

/-- The name of the function. -/
def name (c : Closure) : String := c.declaration.name.lexeme

/-- The number of arguments that a call needs. -/
def arity (c : Closure) : Nat := c.declaration.params.length

end Closure

/-- A class with its superclass and its own methods. -/
structure ClassObject where
  id : ObjectId
  name : String
  superclass : Option ClassObject
  methods : Bindings Closure

namespace ClassObject

/-- The method of the nearest class that has one of this name, from the class itself outward. -/
def method? (name : String) : ClassObject → Option Closure
  | ⟨_, _, superclass, methods⟩ =>
    match methods.get? name with
    | some found => some found
    | none =>
      match superclass with
      | some parent => method? name parent
      | none => none

/-- The method that sets up new instances. -/
def initializer? (c : ClassObject) : Option Closure := c.method? initializerName

/-- The number of arguments that making an instance needs. -/
def arity (c : ClassObject) : Nat := (c.initializer?.map Closure.arity).getD 0

end ClassObject

/-- The functions that the language brings along. -/
inductive Native where
  /-- The seconds since the beginning of 1970. -/
  | clock
  deriving DecidableEq, Repr

namespace Native

/-- The name a function is bound to at the beginning. -/
def name : Native → String
  | clock => "clock"

/-- The number of arguments that a call needs. -/
def arity : Native → Nat
  | clock => 0

/-- All functions that the language brings along. -/
def all : List Native := [clock]

end Native

/-- The values of the language. -/
inductive Value where
  | nil
  | boolean (b : Bool)
  | number (x : Float)
  | string (s : String)
  | function (id : ObjectId) (closure : Closure)
  | native (f : Native)
  | «class» (c : ClassObject)
  | «instance» (id : InstanceId) (c : ClassObject)

namespace Value

/-- The kind of a value. -/
def kind : Value → Kind
  | .nil => .nil
  | .boolean _ => .boolean
  | .number _ => .number
  | .string _ => .string
  | .function _ _ => .function
  | .native _ => .function
  | .class _ => .class
  | .instance _ _ => .instance

/-- Only `nil` and `false` are not true. -/
def truthy : Value → Bool
  | .nil => false
  | .boolean b => b
  | _ => true

/-- Values of different kinds differ; objects are equal only to themselves. -/
def equals : Value → Value → Bool
  | .nil, .nil => true
  | .boolean a, .boolean b => a == b
  | .number a, .number b => a == b
  | .string a, .string b => a == b
  | .function a _, .function b _ => a == b
  | .native a, .native b => a == b
  | .class a, .class b => a.id == b.id
  | .instance a _, .instance b _ => a == b
  | _, _ => false

/-- A value as `print` shows it. -/
def text : Value → String
  | .nil => "nil"
  | .boolean b => if b then "true" else "false"
  | .number x => Number.text x
  | .string s => s
  | .function _ closure => "<fn " ++ closure.name ++ ">"
  | .native f => "<native fn " ++ f.name ++ ">"
  | .class c => "<class " ++ c.name ++ ">"
  | .instance _ c => "<instance of " ++ c.name ++ ">"

end Value

/-- The value of a constant. -/
def Literal.value : Literal → Value
  | .number x => .number x
  | .string s => .string s
  | .boolean b => .boolean b
  | .nil => .nil

end Lox
