import Lox.Syntax.Tree
import Lox.Report.Basic

/-!
# Why a running program fails

* `Kind`: the kinds of values;
* `RuntimeProblem`: what a running program does wrong, with the wording of its message;
* `Failure`: a problem at its place, or text that could not be printed.
-/

namespace Lox

/-- The kinds of values. Functions that the language brings along are functions like any other. -/
inductive Kind where
  | nil
  | boolean
  | number
  | string
  | function
  | «class»
  | «instance»
  deriving DecidableEq, Repr

/-- The word for a kind of value. -/
def Kind.word : Kind → String
  | .nil => "nil"
  | .boolean => "boolean"
  | .number => "number"
  | .string => "string"
  | .function => "function"
  | .class => "class"
  | .instance => "instance"

/-- What a running program does wrong. -/
inductive RuntimeProblem where
  /-- No scope of the chain binds the name. -/
  | undefinedVariable (name : String)
  /-- The recorded distance of a name does not lead to a binding of it. -/
  | lostBinding (name : String)
  | undefinedProperty (name : String)
  | operandNotNumber (found : Kind)
  | operandsNotNumbers (op : BinaryOp) (found : Kind)
  | operandsNotAddable
  | divisionByZero
  | notCallable
  | wrongArgumentCount (expected found : Nat)
  | superclassNotClass
  | noProperties
  | noFields
  deriving DecidableEq, Repr

namespace RuntimeProblem

/-- The wording of a problem. A binding that is lost reads like one that never was. -/
def message : RuntimeProblem → String
  | undefinedVariable name => "Undefined variable '" ++ name ++ "'."
  | lostBinding name => "Undefined variable '" ++ name ++ "'."
  | undefinedProperty name => "Undefined property '" ++ name ++ "'."
  | operandNotNumber found => "Operand must be a number but found " ++ found.word ++ "."
  | operandsNotNumbers op found =>
    "Operands of '" ++ op.spelling ++ "' must be numbers but found " ++ found.word ++ "."
  | operandsNotAddable => "Operands must be two numbers or two strings."
  | divisionByZero => "Division by zero."
  | notCallable => "Can only call functions and classes."
  | wrongArgumentCount expected found =>
    "Expected " ++ toString expected ++ " arguments but got " ++ toString found ++ "."
  | superclassNotClass => "Superclass must be a class."
  | noProperties => "Only instances have properties."
  | noFields => "Only instances have fields."

end RuntimeProblem

/-- Why a running program stopped before its end. -/
inductive Failure where
  | problem (problem : RuntimeProblem) (position : Position)
  /-- Text could not be printed. -/
  | output (message : String)
  deriving DecidableEq, Repr

namespace Failure

/-- The failure as a host sees it. -/
def error : Failure → Error
  | problem p position => .located .running p.message position
  | output message => .output message

/-- What is delivered to the host. -/
def report (f : Failure) : Report := .failure f.error

end Failure

end Lox
