import Lox.Position
import Lox.Number.Text

/-!
# Tokens

* `Punct`, `Keyword`: the fixed spellings of the language, each with the name its kind is shown by;
* `TokenKind`: the kind of a token with the value a literal carries, `Terminal`: the kind alone;
* `Token`: a kind, the text it was read from, its position and its number in the document;
* `Token.display`: the one-line form of a token.
-/

namespace Lox

/-- Punctuation and operators. -/
inductive Punct where
  | leftParen | rightParen | leftBrace | rightBrace
  | comma | dot | minus | plus | semicolon | slash | star
  | bang | bangEqual | equal | equalEqual
  | greater | greaterEqual | less | lessEqual
  deriving DecidableEq, Repr, Inhabited

namespace Punct

/-- The characters a punctuation token is written with. -/
def spelling : Punct → String
  | leftParen => "("
  | rightParen => ")"
  | leftBrace => "\x7b"
  | rightBrace => "\x7d"
  | comma => ","
  | dot => "."
  | minus => "-"
  | plus => "+"
  | semicolon => ";"
  | slash => "/"
  | star => "*"
  | bang => "!"
  | bangEqual => "!="
  | equal => "="
  | equalEqual => "=="
  | greater => ">"
  | greaterEqual => ">="
  | less => "<"
  | lessEqual => "<="

/-- The name a punctuation token is shown by. -/
def name : Punct → String
  | leftParen => "LEFT_PAREN"
  | rightParen => "RIGHT_PAREN"
  | leftBrace => "LEFT_BRACE"
  | rightBrace => "RIGHT_BRACE"
  | comma => "COMMA"
  | dot => "DOT"
  | minus => "MINUS"
  | plus => "PLUS"
  | semicolon => "SEMICOLON"
  | slash => "SLASH"
  | star => "STAR"
  | bang => "BANG"
  | bangEqual => "BANG_EQUAL"
  | equal => "EQUAL"
  | equalEqual => "EQUAL_EQUAL"
  | greater => "GREATER"
  | greaterEqual => "GREATER_EQUAL"
  | less => "LESS"
  | lessEqual => "LESS_EQUAL"

end Punct

/-- The reserved words. -/
inductive Keyword where
  | and | break | «class» | continue | else | false | fun | for | if
  | nil | or | print | return | super | this | true | var | while
  deriving DecidableEq, Repr, Inhabited

namespace Keyword

/-- The word itself. -/
def spelling : Keyword → String
  | .and => "and"
  | .break => "break"
  | .class => "class"
  | .continue => "continue"
  | .else => "else"
  | .false => "false"
  | .fun => "fun"
  | .for => "for"
  | .if => "if"
  | .nil => "nil"
  | .or => "or"
  | .print => "print"
  | .return => "return"
  | .super => "super"
  | .this => "this"
  | .true => "true"
  | .var => "var"
  | .while => "while"

/-- The name a reserved word is shown by: the word in capitals. -/
def name : Keyword → String
  | .and => "AND"
  | .break => "BREAK"
  | .class => "CLASS"
  | .continue => "CONTINUE"
  | .else => "ELSE"
  | .false => "FALSE"
  | .fun => "FUN"
  | .for => "FOR"
  | .if => "IF"
  | .nil => "NIL"
  | .or => "OR"
  | .print => "PRINT"
  | .return => "RETURN"
  | .super => "SUPER"
  | .this => "THIS"
  | .true => "TRUE"
  | .var => "VAR"
  | .while => "WHILE"

/-- All reserved words. -/
def all : List Keyword :=
  [.and, .break, .class, .continue, .else, .false, .fun, .for, .if,
    .nil, .or, .print, .return, .super, .this, .true, .var, .while]

/-- The reserved word spelled `word`, if there is one. -/
def ofSpelling? (word : String) : Option Keyword := all.find? (·.spelling == word)

theorem mem_all (k : Keyword) : k ∈ all := by cases k <;> decide

end Keyword

/-- The kind of a token; a literal carries its value. -/
inductive TokenKind where
  | punct (p : Punct)
  | keyword (k : Keyword)
  | identifier
  /-- The text between the quotes. -/
  | string (contents : String)
  | number (value : Float)
  | endOfInput
  deriving Inhabited

/-- The kind of a token without the value of a literal: what the grammar looks at. -/
inductive Terminal where
  | punct (p : Punct)
  | keyword (k : Keyword)
  | identifier
  | string
  | number
  | endOfInput
  deriving DecidableEq, Repr, Inhabited

namespace TokenKind

/-- Forget the value of a literal. -/
def terminal : TokenKind → Terminal
  | punct p => .punct p
  | keyword k => .keyword k
  | identifier => .identifier
  | string _ => .string
  | number _ => .number
  | endOfInput => .endOfInput

/-- The name a kind is shown by. -/
def name : TokenKind → String
  | punct p => p.name
  | keyword k => k.name
  | identifier => "IDENTIFIER"
  | string _ => "STRING"
  | number _ => "NUMBER"
  | endOfInput => "EOF"

end TokenKind

/-- The number of a token in its document, counted from 0. Two tokens of one spelling are told
apart by it. -/
abbrev TokenId := Nat

/-- One lexeme of a document. -/
structure Token where
  kind : TokenKind
  lexeme : String
  position : Position
  id : TokenId
  deriving Inhabited

namespace Token

/-- The kind of the token, as the grammar sees it. -/
def terminal (t : Token) : Terminal := t.kind.terminal

/-- The end of an empty document. -/
def endOfNothing : Token := ⟨.endOfInput, "", ⟨1, 0, 0⟩, 0⟩

/-- The literal of a token as it is shown; a token that is no literal shows `null`. -/
def literalText (t : Token) : String :=
  match t.kind with
  | .string contents => contents
  | .number value => Number.tokenText value
  | _ => "null"

/-- The one-line form of a token: its kind, its text and its literal. -/
def display (t : Token) : String := t.kind.name ++ " " ++ t.lexeme ++ " " ++ t.literalText

end Token

end Lox
