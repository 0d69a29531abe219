import Lox.Token.Basic

/-!
# What can be wrong with a source text

One type of causes for each stage, each with the wording of its message.

* `LexicalProblem`: what the scanner objects to;
* `SyntaxProblem`: what the parser objects to, `SyntaxProblem.unwinds`: whether it gives up the
  declaration at hand;
* `StaticProblem`: what the resolver objects to;
* `Problem`: any of these, or a binding that nobody uses; `Complaint`: a problem at its place.
-/

namespace Lox

/-! ## Lexical problems -/

/-- A piece of text that begins no token. -/
inductive LexicalProblem where
  | unexpectedCharacter
  | unterminatedString
  deriving DecidableEq, Repr

/-- The wording of a lexical problem. -/
def LexicalProblem.message : LexicalProblem → String
  | unexpectedCharacter => "Unexpected character."
  | unterminatedString => "Unterminated string."

/-! ## Syntax problems -/

/-- The two forms in which a function is declared. -/
inductive FunctionForm where
  | function
  | method
  deriving DecidableEq, Repr

/-- The word for a form of function. -/
def FunctionForm.word : FunctionForm → String
  | function => "function"
  | method => "method"

/-- What a missing name would have named. -/
inductive Named where
  | «class»
  | superclass
  | function (form : FunctionForm)
  | parameter
  | variable
  | superclassMethod
  deriving DecidableEq, Repr

/-- The word for a thing with a name. -/
def Named.word : Named → String
  | .class => "class"
  | .superclass => "superclass"
  | .function form => form.word
  | .parameter => "parameter"
  | .variable => "variable"
  | .superclassMethod => "superclass method"

/-- The place of the grammar where a punctuation mark is missing. -/
inductive Place where
  | beforeClassBody
  | afterClassBody
  | beforeFunctionBody (form : FunctionForm)
  | afterFunctionName (form : FunctionForm)
  | afterParameters
  | afterBlock
  | afterVariableDeclaration
  | afterWord (word : Keyword)
  | afterIfCondition
  | afterWhileCondition
  | afterLoopCondition
  | afterForClauses
  | afterPrintedValue
  | afterReturnValue
  | afterExpression
  | afterArguments
  deriving DecidableEq, Repr

/-- The wording of a place. -/
def Place.text : Place → String
  | beforeClassBody => "before class body"
  | afterClassBody => "after class body"
  | beforeFunctionBody form => "before " ++ form.word ++ " body"
  | afterFunctionName form => "after " ++ form.word ++ " name"
  | afterParameters => "after parameters"
  | afterBlock => "after block"
  | afterVariableDeclaration => "after variable declaration"
  | afterWord word => "after '" ++ word.spelling ++ "'"
  | afterIfCondition => "after if condition"
  | afterWhileCondition => "after while condition"
  | afterLoopCondition => "after loop condition"
  | afterForClauses => "after for clauses"
  | afterPrintedValue => "after value"
  | afterReturnValue => "after return value"
  | afterExpression => "after expression"
  | afterArguments => "after arguments"

/-- A list whose length is limited. -/
inductive Listed where
  | parameters
  | arguments
  deriving DecidableEq, Repr

/-- The word for a list. -/
def Listed.word : Listed → String
  | parameters => "parameters"
  | arguments => "arguments"

/-- The most parameters or arguments a list may hold. -/
def maxListed : Nat := 255

/-- A place where the text leaves the grammar. -/
inductive SyntaxProblem where
  | missingName (named : Named)
  | missingProperty
  | missingMark (mark : Punct) (place : Place)
  | missingExpression
  /-- Text follows an expression that should have been the whole input. -/
  | missingEnd
  | tooMany (list : Listed)
  | invalidTarget
  deriving DecidableEq, Repr

namespace SyntaxProblem

/-- The wording of a syntax problem. -/
def message : SyntaxProblem → String
  | missingName named => "Expect " ++ named.word ++ " name."
  | missingProperty => "Expect property name after '.'."
  | missingMark mark place => "Expect '" ++ mark.spelling ++ "' " ++ place.text ++ "."
  | missingExpression => "Expect expression."
  | missingEnd => "Expect end of expression."
  | tooMany list => "Can't have more than " ++ toString maxListed ++ " " ++ list.word ++ "."
  | invalidTarget => "Invalid assignment target."

/-- The parser gives up the declaration at hand; after the other problems it knows how to go on. -/
def unwinds : SyntaxProblem → Bool
  | missingEnd | tooMany _ | invalidTarget => false
  | _ => true

end SyntaxProblem

/-! ## Static problems -/

/-- A static rule that a well-formed program breaks. -/
inductive StaticProblem where
  | alreadyDeclared
  | readInInitializer
  | inheritsFromItself
  | returnOutsideFunction
  | returnFromInitializer
  | thisOutsideClass
  | superOutsideClass
  | superWithoutSuperclass
  | breakOutsideLoop
  | continueOutsideLoop
  deriving DecidableEq, Repr

/-- The wording of a static problem. -/
def StaticProblem.message : StaticProblem → String
  | alreadyDeclared => "Already a variable with this name in this scope."
  | readInInitializer => "Can't read local variable in its own initializer."
  | inheritsFromItself => "A class can't inherit from itself."
  | returnOutsideFunction => "Can't return from top-level code."
  | returnFromInitializer => "Can't return a value from an initializer."
  | thisOutsideClass => "Can't use 'this' outside of a class."
  | superOutsideClass => "Can't use 'super' outside of a class."
  | superWithoutSuperclass => "Can't use 'super' in a class with no superclass."
  | breakOutsideLoop => "Can't break outside of a loop."
  | continueOutsideLoop => "Can't continue outside of a loop."

/-! ## Problems of a source text -/

/-- How grave a problem is. -/
inductive Severity where
  | error
  | warning
  deriving DecidableEq, Repr

/-- The word for a severity. -/
def Severity.word : Severity → String
  | error => "error"
  | warning => "warning"

/-- Whatever is wrong with a source text before it runs. -/
inductive Problem where
  | lexical (p : LexicalProblem)
  | syntactic (p : SyntaxProblem)
  | static (p : StaticProblem)
  | unused (name : String)
  deriving DecidableEq, Repr

namespace Problem

/-- The wording of a problem. -/
def message : Problem → String
  | lexical p => p.message
  | syntactic p => p.message
  | static p => p.message
  | unused name => "Variable '" ++ name ++ "' is declared but never used."

/-- A binding that nobody uses is a warning, all else is an error. -/
def severity : Problem → Severity
  | unused _ => .warning
  | _ => .error

end Problem

/-- A problem at its place. -/
abbrev Complaint := Located Problem

end Lox
