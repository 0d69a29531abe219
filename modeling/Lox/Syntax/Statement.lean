import Lox.Syntax.Expression

/-!
# The grammar of statements and declarations

Each rule takes the rules for a nested declaration and a nested statement and a bound on its own
repetitions; `declaration` and `statement` tie the rules together.

* `synchronize`: where the parser goes on after a problem that made it give up a declaration;
* `recovering`: a rule that is given up alone;
* `declaration`, `statement`: the two entry points, `declarations`: a row of declarations.
-/

namespace Lox.Parser

/-! ## Going on after a problem -/

/-- The words in front of which the parser goes on. -/
def isBoundary : Terminal → Bool
  | .keyword k =>
    match k with
    | .class | .fun | .var | .for | .if | .while | .print | .return => true
    | _ => false
  | _ => false

/-- Move on from behind the token `skipped` up to the front of a statement: behind a semicolon, in
front of a word that begins a statement, or to the end of the text. -/
def synchronizeFrom (skipped : Token) : Nat → Parser Unit
  | 0 => outOfFuel
  | fuel + 1 => do
    let seen ← peek
    if seen == .endOfInput || skipped.terminal == .punct .semicolon || isBoundary seen then return
    else
      let skipped ← advance
      synchronizeFrom skipped fuel

/-- Move past the token in view and on to the front of a statement. -/
def synchronize (fuel : Nat) : Parser Unit := do
  let skipped ← advance
  synchronizeFrom skipped fuel

/-- Run a rule; when it is given up, go on at the front of the next statement. -/
def recovering (rule : Parser Stmt) (fuel : Nat) : Parser (Option Stmt) :=
  try
    return some (← rule)
  catch
    | .syntaxProblem => do
      synchronize fuel
      return none
    | .outOfFuel => outOfFuel

/-! ## Declarations -/

/-- A row of declarations up to the token `last` or the end of the text. -/
def declarationsFrom (declaration : Parser (Option Stmt)) (last : Terminal) (read : Array Stmt) :
    Nat → Parser (List Stmt)
  | 0 => outOfFuel
  | fuel + 1 => do
    if ← goesOnUnless last then
      match ← declaration with
      | some s => declarationsFrom declaration last (read.push s) fuel
      | none => declarationsFrom declaration last read fuel
    else return read.toList

/-- The declarations of a block and its closing brace, behind the opening one. -/
def block (declaration : Parser (Option Stmt)) (fuel : Nat) : Parser (List Stmt × Token) := do
  let body ← declarationsFrom declaration (.punct .rightBrace) #[] fuel
  let close ← expectMark .rightBrace .afterBlock
  return (body, close)

/-- Parameters up to the one that no comma follows. One parameter too many is noted and read. -/
def parametersFrom (read : Array Token) : Nat → Parser (List Token)
  | 0 => outOfFuel
  | fuel + 1 => do
    if read.size ≥ maxListed then complain (.tooMany .parameters) (← get).current
    let parameter ← expectName .parameter
    let read := read.push parameter
    match ← accept? (.punct .comma) with
    | some _ => parametersFrom read fuel
    | none => return read.toList

/-- The span of a declaration from its first token to its last one. -/
def spanFrom (first last : Token) : Position :=
  ⟨first.position.line, first.position.start, last.position.stop⟩

/-- A function from its name on; `first` is the first token of its declaration. -/
def function (declaration : Parser (Option Stmt)) (form : FunctionForm) (first : Token)
    (fuel : Nat) : Parser Function := do
  let name ← expectName (.function form)
  let _ ← expectMark .leftParen (.afterFunctionName form)
  let params ← if (← peek) == .punct .rightParen then pure [] else parametersFrom #[] fuel
  let _ ← expectMark .rightParen .afterParameters
  let _ ← expectMark .leftBrace (.beforeFunctionBody form)
  let (body, close) ← block declaration fuel
  return ⟨name, params, body, spanFrom first close⟩

/-- The methods of a class up to its closing brace. A method begins with its name. -/
def methodsFrom (declaration : Parser (Option Stmt)) (read : Array Function) :
    Nat → Parser (List Function)
  | 0 => outOfFuel
  | fuel + 1 => do
    if ← goesOnUnless (.punct .rightBrace) then
      let method ← function declaration .method (← get).current fuel
      methodsFrom declaration (read.push method) fuel
    else return read.toList

/-- The superclass of a class, if one is named. -/
def superclass? : Parser (Option Occurrence) := do
  match ← accept? (.punct .less) with
  | none => return none
  | some _ =>
    let name ← expectName .superclass
    return some ⟨← freshId, name⟩

/-- A class behind the word `class`, which is `keyword`. -/
def classDeclaration (declaration : Parser (Option Stmt)) (keyword : Token) (fuel : Nat) :
    Parser Stmt := do
  let name ← expectName .class
  let superclass ← superclass?
  let _ ← expectMark .leftBrace .beforeClassBody
  let methods ← methodsFrom declaration #[] fuel
  let close ← expectMark .rightBrace .afterClassBody
  return .class ⟨name, superclass, methods, spanFrom keyword close⟩

/-- A variable behind the word `var`. -/
def varDeclaration (fuel : Nat) : Parser Stmt := do
  let name ← expectName .variable
  let initializer ← do
    match ← accept? (.punct .equal) with
    | some _ => some <$> expression fuel
    | none => pure none
  let _ ← expectMark .semicolon .afterVariableDeclaration
  return .var name initializer

/-! ## Statements -/

/-- An expression and its semicolon. -/
def expressionStatement (fuel : Nat) : Parser Stmt := do
  let e ← expression fuel
  let _ ← expectMark .semicolon .afterExpression
  return .expression e

/-- An expression unless the mark that ends it is in view. -/
def optionalExpression (stop : Punct) (fuel : Nat) : Parser (Option Expr) := do
  if (← peek) == .punct stop then return none else some <$> expression fuel

/-- The first clause of a `for` statement with its semicolon. -/
def forInitializer (fuel : Nat) : Parser (Option Stmt) := do
  match ← peek with
  | .punct .semicolon =>
    let _ ← advance
    return none
  | .keyword .var =>
    let _ ← advance
    some <$> varDeclaration fuel
  | _ => some <$> expressionStatement fuel

/-- A `for` statement behind its first word. -/
def forStatement (statement : Parser Stmt) (fuel : Nat) : Parser Stmt := do
  let _ ← expectMark .leftParen (.afterWord .for)
  let initializer ← forInitializer fuel
  let condition ← optionalExpression .semicolon fuel
  let _ ← expectMark .semicolon .afterLoopCondition
  let increment ← optionalExpression .rightParen fuel
  let _ ← expectMark .rightParen .afterForClauses
  let body ← statement
  return .forLoop initializer condition increment body

/-- An `if` statement behind its first word. An `else` belongs to the nearest `if`. -/
def ifStatement (statement : Parser Stmt) (fuel : Nat) : Parser Stmt := do
  let _ ← expectMark .leftParen (.afterWord .if)
  let condition ← expression fuel
  let _ ← expectMark .rightParen .afterIfCondition
  let thenBranch ← statement
  match ← accept? (.keyword .else) with
  | some _ => return .ifElse condition thenBranch (some (← statement))
  | none => return .ifElse condition thenBranch none

/-- A `while` statement behind its first word. -/
def whileStatement (statement : Parser Stmt) (fuel : Nat) : Parser Stmt := do
  let _ ← expectMark .leftParen (.afterWord .while)
  let condition ← expression fuel
  let _ ← expectMark .rightParen .afterWhileCondition
  let body ← statement
  return .whileLoop condition body

/-- A `return` statement behind its word, which is `keyword`. -/
def returnStatement (keyword : Token) (fuel : Nat) : Parser Stmt := do
  let value ← optionalExpression .semicolon fuel
  let _ ← expectMark .semicolon .afterReturnValue
  return .return keyword value

/-- A `print` statement behind its word. -/
def printStatement (fuel : Nat) : Parser Stmt := do
  let e ← expression fuel
  let _ ← expectMark .semicolon .afterPrintedValue
  return .print e

/-- A statement, dispatched by its first token. -/
def statementRule (declaration : Parser (Option Stmt)) (statement : Parser Stmt) (fuel : Nat) :
    Parser Stmt := do
  match ← peek with
  | .keyword .for =>
    let _ ← advance
    forStatement statement fuel
  | .keyword .if =>
    let _ ← advance
    ifStatement statement fuel
  | .keyword .while =>
    let _ ← advance
    whileStatement statement fuel
  | .keyword .return =>
    let keyword ← advance
    returnStatement keyword fuel
  | .keyword .break =>
    let keyword ← advance
    let _ ← expectMark .semicolon (.afterWord .break)
    return .break keyword
  | .keyword .continue =>
    let keyword ← advance
    let _ ← expectMark .semicolon (.afterWord .continue)
    return .continue keyword
  | .punct .leftBrace =>
    let _ ← advance
    let (body, _) ← block declaration fuel
    return .block body
  | .keyword .print =>
    let _ ← advance
    printStatement fuel
  | _ => expressionStatement fuel

/-- A declaration or a statement, dispatched by its first token. -/
def declarationRule (declaration : Parser (Option Stmt)) (statement : Parser Stmt) (fuel : Nat) :
    Parser Stmt := do
  match ← peek with
  | .keyword .class =>
    let keyword ← advance
    classDeclaration declaration keyword fuel
  | .keyword .fun =>
    let keyword ← advance
    return .function (← function declaration .function keyword fuel)
  | .keyword .var =>
    let _ ← advance
    varDeclaration fuel
  | _ => statementRule declaration statement fuel

mutual

/-- A declaration or statement whose tree is at most `fuel` levels deep, or nothing after a
problem that made the parser give it up. -/
def declaration : Nat → Parser (Option Stmt)
  | 0 => outOfFuel
  | fuel + 1 => recovering (declarationRule (declaration fuel) (statement fuel) fuel) fuel

/-- A statement whose tree is at most `fuel` levels deep. -/
def statement : Nat → Parser Stmt
  | 0 => outOfFuel
  | fuel + 1 => statementRule (declaration fuel) (statement fuel) fuel

end

/-- The declarations of a whole text. -/
def declarations (fuel : Nat) : Parser (List Stmt) :=
  declarationsFrom (declaration fuel) .endOfInput #[] fuel

end Lox.Parser
