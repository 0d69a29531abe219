import Lox.Proofs.Ensures
import Lox.Machine.Evaluate

/-!
# Calls taken apart

* `Eval.runBody`, `Eval.resultOf`: running the body of a function and what the call yields then;
* `Eval.invoke_eq`, `Eval.callRule_function`, `Eval.callRule_class`: a call is made up of them.
-/

namespace Lox.Eval

variable {run : Stmt → Eval Completion} {c : Closure} {k : ClassObject} {id : ObjectId}
  {arguments : List Value} {needed : Nat} {paren : Token}

/-- Run the body of a function on its arguments, in a scope of its own. -/
def runBody (run : Stmt → Eval Completion) (c : Closure) (arguments : List Value) :
    Eval Completion := do
  let scope ← openScope c.scope
  defineAll scope c.declaration.params arguments
  within scope (runAll run c.declaration.body)

/-- What a call yields whose body ended in a certain way. -/
def resultOf (c : Closure) (ended : Completion) : Eval Value :=
  if c.isInitializer then boundThis c
  else
    match ended with
    | .return value => pure value
    | _ => pure .nil

theorem invoke_eq : invoke run c arguments = runBody run c arguments >>= resultOf c := by
  simp only [invoke, runBody, bind_assoc]
  rfl

theorem checkArity_of_eq (h : arguments.length = needed) :
    checkArity needed arguments paren = pure () :=
  if_pos (beq_iff_eq.mpr h)

theorem checkArity_of_ne (h : arguments.length ≠ needed) :
    checkArity needed arguments paren = fail (.wrongArgumentCount needed arguments.length) paren :=
  if_neg (by simpa using h)

theorem callRule_function (h : arguments.length = c.arity) :
    callRule run (.function id c) arguments paren = invoke run c arguments := by
  simp only [callRule, checkArity_of_eq h]
  rfl

theorem callRule_class_none (h : arguments.length = k.arity) (hk : k.initializer? = none) :
    callRule run (.class k) arguments paren = freshInstance k := by
  simp only [callRule, checkArity_of_eq h, hk]
  rfl

theorem callRule_class (h : arguments.length = k.arity) (hk : k.initializer? = some c) :
    callRule run (.class k) arguments paren = (do
      let this ← freshInstance k
      let bound ← bind c this
      let _ ← invoke run bound arguments
      return this) := by
  simp only [callRule, checkArity_of_eq h, hk]
  rfl

end Lox.Eval
