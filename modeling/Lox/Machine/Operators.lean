import Lox.Machine.Value

/-!
# Operators on values

* `UnaryOp.apply`, `BinaryOp.apply`: the value of an operator, or what is wrong with its operands;
* `LogicalOp.decidedBy`: the first operand decides the value of a logical operator.
-/

namespace Lox

/-- The value of an operator with one operand. -/
def UnaryOp.apply : UnaryOp → Value → Except RuntimeProblem Value
  | .negate, .number x => .ok (.number (-x))
  | .negate, v => .error (.operandNotNumber v.kind)
  | .not, v => .ok (.boolean !v.truthy)

/-- The value of an operator on two numbers. -/
def BinaryOp.applyNumbers (op : BinaryOp) (a b : Float) : Except RuntimeProblem Value :=
  match op with
  | .add => .ok (.number (a + b))
  | .subtract => .ok (.number (a - b))
  | .multiply => .ok (.number (a * b))
  | .divide => if b == 0 then .error .divisionByZero else .ok (.number (a / b))
  | .equal => .ok (.boolean (a == b))
  | .notEqual => .ok (.boolean (a != b))
  | .less => .ok (.boolean (a < b))
  | .lessEqual => .ok (.boolean (a ≤ b))
  | .greater => .ok (.boolean (b < a))
  | .greaterEqual => .ok (.boolean (b ≤ a))

/-- The value of an operator that needs two numbers. The first operand that is none is named. -/
def BinaryOp.onNumbers (op : BinaryOp) : Value → Value → Except RuntimeProblem Value
  | .number a, .number b => op.applyNumbers a b
  | .number _, v => .error (.operandsNotNumbers op v.kind)
  | v, _ => .error (.operandsNotNumbers op v.kind)

/-- The value of an operator with two operands. -/
def BinaryOp.apply (op : BinaryOp) (left right : Value) : Except RuntimeProblem Value :=
  match op with
  | .equal => .ok (.boolean (left.equals right))
  | .notEqual => .ok (.boolean !left.equals right)
  | .add =>
    match left, right with
    | .number a, .number b => .ok (.number (a + b))
    | .string a, .string b => .ok (.string (a ++ b))
    | _, _ => .error .operandsNotAddable
  | _ => op.onNumbers left right

/-- The first operand decides: `or` stops at a true one, `and` at one that is not true. -/
def LogicalOp.decidedBy (op : LogicalOp) (left : Value) : Bool :=
  match op with
  | .or => left.truthy
  | .and => !left.truthy

end Lox
