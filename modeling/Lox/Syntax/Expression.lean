import Lox.Syntax.Cursor

/-!
# The grammar of expressions

From the loosest to the tightest: assignment, `or`, `and`, equality, comparison, sums, products,
prefix operators, calls and properties, and the things that need no operator. Binary and logical
operators associate to the left, assignment and prefix operators to the right.

Each rule takes the rule for a nested expression and a bound on its own repetitions; `expression`
ties the rules together.

* `chain`: operands separated by left-associative operators;
* `disjunction`, …, `factor`: the levels of the ladder;
* `unary`, `call`, `primary`: the rules below it;
* `expression`: a whole expression.
-/

namespace Lox.Parser

/-! ## Left-associative operators -/

/-- Builds the node of an infix operator from its operands and its token. -/
abbrev Infix := Expr → Token → Expr → Expr

/-- The operators of one level of the ladder. -/
abbrev Level := Terminal → Option Infix

/-- The node of a binary operator. -/
def binaryNode (op : BinaryOp) : Infix := fun left operator right => .binary left op operator right

/-- The node of a logical operator. -/
def logicalNode (op : LogicalOp) : Infix := fun left operator right => .logical left op operator right

/-- Read further operands as long as an operator of the level is in view. -/
def chainFrom (level : Level) (operand : Parser Expr) (left : Expr) : Nat → Parser Expr
  | 0 => outOfFuel
  | fuel + 1 => do
    match level (← peek) with
    | none => return left
    | some node =>
      let operator ← advance
      let right ← operand
      chainFrom level operand (node left operator right) fuel

/-- Operands separated by the operators of a level. -/
def chain (level : Level) (operand : Parser Expr) (fuel : Nat) : Parser Expr := do
  let left ← operand
  chainFrom level operand left fuel

/-- The operator `or`. -/
def orLevel : Level
  | .keyword .or => some (logicalNode .or)
  | _ => none

/-- The operator `and`. -/
def andLevel : Level
  | .keyword .and => some (logicalNode .and)
  | _ => none

/-- The equality operators. -/
def equalityLevel : Level
  | .punct .bangEqual => some (binaryNode .notEqual)
  | .punct .equalEqual => some (binaryNode .equal)
  | _ => none

/-- The comparison operators. -/
def comparisonLevel : Level
  | .punct .greater => some (binaryNode .greater)
  | .punct .greaterEqual => some (binaryNode .greaterEqual)
  | .punct .less => some (binaryNode .less)
  | .punct .lessEqual => some (binaryNode .lessEqual)
  | _ => none

/-- The operators of sums. -/
def termLevel : Level
  | .punct .minus => some (binaryNode .subtract)
  | .punct .plus => some (binaryNode .add)
  | _ => none

/-- The operators of products. -/
def factorLevel : Level
  | .punct .star => some (binaryNode .multiply)
  | .punct .slash => some (binaryNode .divide)
  | _ => none

/-- The prefix operators. -/
def prefixOp? : Terminal → Option UnaryOp
  | .punct .bang => some .not
  | .punct .minus => some .negate
  | _ => none

/-! ## Below the ladder -/

/-- Arguments up to the one that no comma follows. One argument too many is noted and read. -/
def argumentsFrom (nested : Parser Expr) (read : Array Expr) : Nat → Parser (List Expr)
  | 0 => outOfFuel
  | fuel + 1 => do
    if read.size ≥ maxListed then complain (.tooMany .arguments) (← get).current
    let argument ← nested
    let read := read.push argument
    match ← accept? (.punct .comma) with
    | some _ => argumentsFrom nested read fuel
    | none => return read.toList

/-- The arguments of a call, behind its opening parenthesis, and the closing one. -/
def arguments (nested : Parser Expr) (fuel : Nat) : Parser (List Expr × Token) := do
  let read ← if (← peek) == .punct .rightParen then pure [] else argumentsFrom nested #[] fuel
  let paren ← expectMark .rightParen .afterArguments
  return (read, paren)

/-- Things that need no operator. -/
def primary (nested : Parser Expr) : Parser Expr := do
  match (← get).current.kind with
  | .keyword .false => let _ ← advance; return .literal (.boolean false)
  | .keyword .true => let _ ← advance; return .literal (.boolean true)
  | .keyword .nil => let _ ← advance; return .literal .nil
  | .number value => let _ ← advance; return .literal (.number value)
  | .string contents => let _ ← advance; return .literal (.string contents)
  | .identifier =>
    let name ← advance
    return .variable ⟨← freshId, name⟩
  | .keyword .this =>
    let keyword ← advance
    return .this ⟨← freshId, keyword⟩
  | .keyword .super =>
    let keyword ← advance
    let _ ← expectMark .dot (.afterWord .super)
    let method ← expectName .superclassMethod
    return .super ⟨← freshId, keyword⟩ method
  | .punct .leftParen =>
    let _ ← advance
    let inner ← nested
    let _ ← expectMark .rightParen .afterExpression
    return .grouping inner
  | _ => fail .missingExpression

/-- Calls and properties behind `callee`. -/
def callFrom (nested : Parser Expr) (callee : Expr) : Nat → Parser Expr
  | 0 => outOfFuel
  | fuel + 1 => do
    match ← peek with
    | .punct .leftParen =>
      let _ ← advance
      let (read, paren) ← arguments nested fuel
      callFrom nested (.call callee read paren) fuel
    | .punct .dot =>
      let _ ← advance
      let name ← expect .identifier .missingProperty
      callFrom nested (.get callee name) fuel
    | _ => return callee

/-- A primary with its calls and properties. -/
def call (nested : Parser Expr) (fuel : Nat) : Parser Expr := do
  let callee ← primary nested
  callFrom nested callee fuel

/-- A call behind any number of prefix operators. -/
def unary (nested : Parser Expr) : Nat → Parser Expr
  | 0 => outOfFuel
  | fuel + 1 => do
    match prefixOp? (← peek) with
    | some op =>
      let operator ← advance
      let operand ← unary nested fuel
      return .unary op operator operand
    | none => call nested fuel

/-! ## The ladder -/

/-- Products. -/
def factor (nested : Parser Expr) (fuel : Nat) : Parser Expr :=
  chain factorLevel (unary nested fuel) fuel

/-- Sums. -/
def term (nested : Parser Expr) (fuel : Nat) : Parser Expr :=
  chain termLevel (factor nested fuel) fuel

/-- Comparisons. -/
def comparison (nested : Parser Expr) (fuel : Nat) : Parser Expr :=
  chain comparisonLevel (term nested fuel) fuel

/-- Equalities. -/
def equality (nested : Parser Expr) (fuel : Nat) : Parser Expr :=
  chain equalityLevel (comparison nested fuel) fuel

/-- Conjunctions. -/
def conjunction (nested : Parser Expr) (fuel : Nat) : Parser Expr :=
  chain andLevel (equality nested fuel) fuel

/-- Disjunctions. -/
def disjunction (nested : Parser Expr) (fuel : Nat) : Parser Expr :=
  chain orLevel (conjunction nested fuel) fuel

/-- What an assignment to `target` builds. Only a variable and a property can be assigned to;
another target is noted and stays in place of the assignment. -/
def assignTo (target : Expr) (equals : Token) (value : Expr) : Parser Expr :=
  match target with
  | .variable use => do return .assign ⟨← freshId, use.name⟩ value
  | .get object name => return .set object name value
  | other => do
    complain .invalidTarget equals
    return other

/-- Assignments, whose right-hand side is a nested expression. -/
def assignment (nested : Parser Expr) (fuel : Nat) : Parser Expr := do
  let target ← disjunction nested fuel
  match ← accept? (.punct .equal) with
  | none => return target
  | some equals =>
    let value ← nested
    assignTo target equals value

/-- An expression whose tree is at most `fuel` levels deep. -/
def expression : Nat → Parser Expr
  | 0 => outOfFuel
  | fuel + 1 => assignment (expression fuel) fuel

end Lox.Parser
