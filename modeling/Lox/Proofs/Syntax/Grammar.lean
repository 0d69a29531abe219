import Lox.Proofs.Syntax.Regular
import Lox.Report.Problem

/-!
# The grammar

Which rows of tokens are an expression, a statement or a program, and which tree each of them
stands for. Nothing here refers to the rules that read a text.

* `Grammar.Level`: the levels of infix operators, `Grammar.Rank`: how tightly an expression binds;
* `Grammar.Expression`, `Grammar.Arguments`: expressions and the arguments of a call;
* `Stmt.endsOpen`: an `else` behind the statement would belong to an `if` inside it;
* `Grammar.Statement`, `Grammar.Declaration`, `Grammar.Declarations`: statements, declarations and
  rows of them, which programs are.

The number of an occurrence is not written in a text, so a row of tokens stands for every way to
number its tree.
-/

namespace Lox

namespace Grammar

/-! ## Expressions -/

/-- The levels of infix operators, from the loosest to the tightest. -/
inductive Level where
  | disjunction | conjunction | equality | comparison | sum | product
  deriving DecidableEq

/-- How tightly an expression binds, from the loosest to the tightest. -/
inductive Rank where
  /-- Anything, an assignment included. -/
  | expression
  | operation (level : Level)
  | unary
  | call
  | primary
  deriving DecidableEq

/-- What the right operand of an operator must be. -/
def Level.operand : Level → Rank
  | disjunction => .operation .conjunction
  | conjunction => .operation .equality
  | equality => .operation .comparison
  | comparison => .operation .sum
  | sum => .operation .product
  | product => .unary

end Grammar

/-- The level of a binary operator. -/
def BinaryOp.level : BinaryOp → Grammar.Level
  | equal | notEqual => .equality
  | less | lessEqual | greater | greaterEqual => .comparison
  | add | subtract => .sum
  | multiply | divide => .product

/-- The level of a logical operator. -/
def LogicalOp.level : LogicalOp → Grammar.Level
  | and => .conjunction
  | or => .disjunction

/-- How a constant is written. -/
def Literal.kind : Literal → TokenKind
  | number value => .number value
  | string contents => .string contents
  | boolean true => .keyword .true
  | boolean false => .keyword .false
  | nil => .keyword .nil

namespace Grammar

mutual

/-- The tokens are an expression of the given rank and stand for the given tree. -/
inductive Expression : Rank → List Token → Expr → Prop where
  | literal {t value} : t.kind = value.kind → Expression .primary [t] (.literal value)
  | variable {t id} : t.IsName → Expression .primary [t] (.variable ⟨id, t⟩)
  | this {t id} : t.IsWord .this → Expression .primary [t] (.this ⟨id, t⟩)
  | super {t dot method id} : t.IsWord .super → dot.IsMark .dot → method.IsName →
      Expression .primary [t, dot, method] (.super ⟨id, t⟩ method)
  | grouping {opening ts closing e} : opening.IsMark .leftParen → Expression .expression ts e →
      closing.IsMark .rightParen →
      Expression .primary (opening :: ts ++ [closing]) (.grouping e)
  | callPrimary {ts e} : Expression .primary ts e → Expression .call ts e
  | call {ts opening us closing e es} : Expression .call ts e → opening.IsMark .leftParen →
      Arguments us es → es.length ≤ maxListed → closing.IsMark .rightParen →
      Expression .call (ts ++ opening :: us ++ [closing]) (.call e es closing)
  | get {ts dot name e} : Expression .call ts e → dot.IsMark .dot → name.IsName →
      Expression .call (ts ++ [dot, name]) (.get e name)
  | unaryCall {ts e} : Expression .call ts e → Expression .unary ts e
  | unary {op t ts e} : t.terminal = op.terminal → Expression .unary ts e →
      Expression .unary (t :: ts) (.unary op t e)
  | operand {level ts e} : Expression level.operand ts e → Expression (.operation level) ts e
  | binary {level op ts t us e f} : op.level = level → Expression (.operation level) ts e →
      t.IsMark op.punct → Expression level.operand us f →
      Expression (.operation level) (ts ++ t :: us) (.binary e op t f)
  | logical {level op ts t us e f} : op.level = level → Expression (.operation level) ts e →
      t.IsWord op.keyword → Expression level.operand us f →
      Expression (.operation level) (ts ++ t :: us) (.logical e op t f)
  | disjunction {ts e} : Expression (.operation .disjunction) ts e → Expression .expression ts e
  | assign {t id equals ts e} : t.IsName → equals.IsMark .equal → Expression .expression ts e →
      Expression .expression (t :: equals :: ts) (.assign ⟨id, t⟩ e)
  | set {ts dot name equals us e f} : Expression .call ts e → dot.IsMark .dot → name.IsName →
      equals.IsMark .equal → Expression .expression us f →
      Expression .expression (ts ++ dot :: name :: equals :: us) (.set e name f)

/-- The tokens are one or more expressions with commas between them. -/
inductive Listed : List Token → List Expr → Prop where
  | one {ts e} : Expression .expression ts e → Listed ts [e]
  | more {ts comma us e es} : Expression .expression ts e → comma.IsMark .comma → Listed us es →
      Listed (ts ++ comma :: us) (e :: es)

/-- The tokens are the arguments of a call. -/
inductive Arguments : List Token → List Expr → Prop where
  | none : Arguments [] []
  | some {ts es} : Listed ts es → Arguments ts es

end

theorem Listed.ne_nil {ts : List Token} {es : List Expr} (h : Listed ts es) : es ≠ [] := by
  cases h <;> simp

/-- The tokens are an expression, or none. -/
inductive Optional : List Token → Option Expr → Prop where
  | none : Optional [] none
  | some {ts e} : Expression .expression ts e → Optional ts (some e)

/-! ## Parts of statements -/

/-- An expression and its semicolon. -/
inductive ExpressionStatement : List Token → Stmt → Prop where
  | mk {ts semicolon e} : Expression .expression ts e → semicolon.IsMark .semicolon →
      ExpressionStatement (ts ++ [semicolon]) (.expression e)

/-- The initial value of a variable, if it has one. -/
inductive InitialValue : List Token → Option Expr → Prop where
  | none : InitialValue [] none
  | some {equals ts e} : equals.IsMark .equal → Expression .expression ts e →
      InitialValue (equals :: ts) (some e)

/-- The declaration of a variable. -/
inductive Variable : List Token → Stmt → Prop where
  | mk {word name ts semicolon value} : word.IsWord .var → name.IsName → InitialValue ts value →
      semicolon.IsMark .semicolon → Variable (word :: name :: ts ++ [semicolon]) (.var name value)

/-- The first clause of a `for` statement with its semicolon. -/
inductive Initializer : List Token → Option Stmt → Prop where
  | none {semicolon} : semicolon.IsMark .semicolon → Initializer [semicolon] none
  | variable {ts s} : Variable ts s → Initializer ts (some s)
  | expression {ts s} : ExpressionStatement ts s → Initializer ts (some s)

/-- One or more names with commas between them. -/
inductive Names : List Token → List Token → Prop where
  | one {name} : name.IsName → Names [name] [name]
  | more {name comma ts names} : name.IsName → comma.IsMark .comma → Names ts names →
      Names (name :: comma :: ts) (name :: names)

theorem Names.ne_nil {ts names : List Token} (h : Names ts names) : names ≠ [] := by
  cases h <;> simp

/-- The parameters of a function. -/
inductive Parameters : List Token → List Token → Prop where
  | none : Parameters [] []
  | some {ts names} : Names ts names → Parameters ts names

/-- The superclass of a class, if it names one. -/
inductive Superclass : List Token → Option Occurrence → Prop where
  | none : Superclass [] none
  | some {less name id} : less.IsMark .less → name.IsName → Superclass [less, name] (some ⟨id, name⟩)

end Grammar

/-! ## Statements -/

/-- The statement ends with an `if` that has no `else`. An `else` behind it would belong to that
`if`. -/
def Stmt.endsOpen : Stmt → Bool
  | .ifElse _ _ none => true
  | .ifElse _ _ (some elseBranch) => elseBranch.endsOpen
  | .whileLoop _ body => body.endsOpen
  | .forLoop _ _ _ body => body.endsOpen
  | _ => false

namespace Grammar

mutual

/-- The tokens are a statement and stand for the given tree. -/
inductive Statement : List Token → Stmt → Prop where
  | expression {ts s} : ExpressionStatement ts s → Statement ts s
  | print {word ts semicolon e} : word.IsWord .print → Expression .expression ts e →
      semicolon.IsMark .semicolon → Statement (word :: ts ++ [semicolon]) (.print e)
  | block {opening ts closing body} : opening.IsMark .leftBrace → Declarations ts body →
      closing.IsMark .rightBrace → Statement (opening :: ts ++ [closing]) (.block body)
  | ifThen {word opening ts closing us condition thenBranch} : word.IsWord .if →
      opening.IsMark .leftParen → Expression .expression ts condition →
      closing.IsMark .rightParen → Statement us thenBranch →
      Statement (word :: opening :: ts ++ closing :: us) (.ifElse condition thenBranch none)
  /-- The `else` belongs to the nearest `if` that is still open. -/
  | ifElse {word opening ts closing us other vs condition thenBranch elseBranch} :
      word.IsWord .if → opening.IsMark .leftParen → Expression .expression ts condition →
      closing.IsMark .rightParen → Statement us thenBranch → thenBranch.endsOpen = false →
      other.IsWord .else → Statement vs elseBranch →
      Statement (word :: opening :: ts ++ closing :: us ++ other :: vs)
        (.ifElse condition thenBranch (some elseBranch))
  | whileLoop {word opening ts closing us condition body} : word.IsWord .while →
      opening.IsMark .leftParen → Expression .expression ts condition →
      closing.IsMark .rightParen → Statement us body →
      Statement (word :: opening :: ts ++ closing :: us) (.whileLoop condition body)
  | forLoop {word opening ts us semicolon vs closing ws initializer condition increment body} :
      word.IsWord .for → opening.IsMark .leftParen → Initializer ts initializer →
      Optional us condition → semicolon.IsMark .semicolon → Optional vs increment →
      closing.IsMark .rightParen → Statement ws body →
      Statement (word :: opening :: ts ++ us ++ semicolon :: vs ++ closing :: ws)
        (.forLoop initializer condition increment body)
  | return {word ts semicolon value} : word.IsWord .return → Optional ts value →
      semicolon.IsMark .semicolon → Statement (word :: ts ++ [semicolon]) (.return word value)
  | break {word semicolon} : word.IsWord .break → semicolon.IsMark .semicolon →
      Statement [word, semicolon] (.break word)
  | continue {word semicolon} : word.IsWord .continue → semicolon.IsMark .semicolon →
      Statement [word, semicolon] (.continue word)

/-- The tokens are a declaration or a statement and stand for the given tree. -/
inductive Declaration : List Token → Stmt → Prop where
  | class {word name ts opening us closing superclass methods} : word.IsWord .class →
      name.IsName → Superclass ts superclass → opening.IsMark .leftBrace → Methods us methods →
      closing.IsMark .rightBrace →
      Declaration (word :: name :: ts ++ opening :: us ++ [closing])
        (.class ⟨name, superclass, methods,
          ⟨word.position.line, word.position.start, closing.position.stop⟩⟩)
  | function {word ts declaration} : word.IsWord .fun → Callable word ts declaration →
      Declaration (word :: ts) (.function declaration)
  | variable {ts s} : Variable ts s → Declaration ts s
  | statement {ts s} : Statement ts s → Declaration ts s

/-- The tokens are a function from its name on; its declaration begins with the token `first`. -/
inductive Callable : Token → List Token → Function → Prop where
  | mk {first name opening ts closing brace us final params body} : name.IsName →
      opening.IsMark .leftParen → Parameters ts params → params.length ≤ maxListed →
      closing.IsMark .rightParen → brace.IsMark .leftBrace → Declarations us body →
      final.IsMark .rightBrace →
      Callable first (name :: opening :: ts ++ closing :: brace :: us ++ [final])
        ⟨name, params, body, ⟨first.position.line, first.position.start, final.position.stop⟩⟩

/-- The tokens are the methods of a class. A method begins with its name. -/
inductive Methods : List Token → List Function → Prop where
  | nil : Methods [] []
  | cons {name ts us method methods} : Callable name (name :: ts) method → Methods us methods →
      Methods (name :: ts ++ us) (method :: methods)

/-- The tokens are a row of declarations. -/
inductive Declarations : List Token → List Stmt → Prop where
  | nil : Declarations [] []
  | cons {ts us s ss} : Declaration ts s → Declarations us ss → Declarations (ts ++ us) (s :: ss)

end

theorem Declarations.append {ts us : List Token} {ss rest : List Stmt} (h : Declarations ts ss)
    (h' : Declarations us rest) : Declarations (ts ++ us) (ss ++ rest) := by
  match h with
  | .nil => exact h'
  | .cons hs hss =>
    rw [List.append_assoc]
    exact .cons hs (hss.append h')
termination_by structural h

end Grammar

end Lox
