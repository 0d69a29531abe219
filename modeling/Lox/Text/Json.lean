/-!
# Writing JSON

* `Json`: the values that are written; numbers are natural, fields keep their order;
* `Json.quoted`: a string between quotes;
* `Json.pretty`: a value over several lines, indented by two blanks for each level.
-/

namespace Lox.Text

/-- The JSON values that are written. -/
inductive Json where
  | null
  | bool (b : Bool)
  | number (n : Nat)
  | string (s : String)
  | array (items : List Json)
  | object (fields : List (String × Json))

namespace Json

/-- A hexadecimal digit. -/
def hexDigit (n : Nat) : Char := Nat.digitChar (n % 16)

/-- A character inside a string. Quotes, backslashes and control characters are escaped, all
others stand for themselves. -/
def escaped (c : Char) : List Char :=
  match c with
  | '"' => ['\\', '"']
  | '\\' => ['\\', '\\']
  | '\x08' => ['\\', 'b']
  | '\x0c' => ['\\', 'f']
  | '\n' => ['\\', 'n']
  | '\r' => ['\\', 'r']
  | '\t' => ['\\', 't']
  | c =>
    if c.toNat < 0x20 then ['\\', 'u', '0', '0', hexDigit (c.toNat / 16), hexDigit c.toNat] else [c]

/-- A string between quotes. -/
def quoted (s : String) : String := String.ofList ('"' :: (s.toList.flatMap escaped ++ ['"']))

/-- The beginning of a line on the given level. -/
def newline (level : Nat) : String := String.ofList ('\n' :: List.replicate (2 * level) ' ')

mutual

/-- A value that begins on the given level, over several lines. -/
def prettyAt (level : Nat) : Json → String
  | null => "null"
  | bool b => if b then "true" else "false"
  | number n => toString n
  | string s => quoted s
  | array [] => "[]"
  | array (item :: rest) =>
    "[" ++ newline (level + 1) ++ prettyAt (level + 1) item ++ prettyItems (level + 1) rest ++
      newline level ++ "]"
  | object [] => "\x7b\x7d"
  | object ((key, value) :: rest) =>
    "\x7b" ++ newline (level + 1) ++ quoted key ++ ": " ++ prettyAt (level + 1) value ++
      prettyFields (level + 1) rest ++ newline level ++ "\x7d"

/-- The items behind the first one. -/
def prettyItems (level : Nat) : List Json → String
  | [] => ""
  | item :: rest => "," ++ newline level ++ prettyAt level item ++ prettyItems level rest

/-- The fields behind the first one. -/
def prettyFields (level : Nat) : List (String × Json) → String
  | [] => ""
  | (key, value) :: rest =>
    "," ++ newline level ++ quoted key ++ ": " ++ prettyAt level value ++ prettyFields level rest

end

/-- A value over several lines. -/
def pretty (j : Json) : String := prettyAt 0 j

end Json

end Lox.Text
