/-!
# Decoding UTF-8

* `Fault`: where a byte sequence stops being UTF-8 and why, with the wording of its message;
* `step`: the first character of a byte sequence, or what is wrong with it;
* `decode`: the text of a byte sequence, or its first fault.
-/

namespace Lox.Text.Utf8

/-- The reason why bytes are not UTF-8. -/
inductive Fault where
  /-- After the first `index` bytes stand `length` bytes that begin no character. -/
  | invalid (index length : Nat)
  /-- After the first `index` bytes the input ends inside a character. -/
  | incomplete (index : Nat)
  deriving DecidableEq, Repr

/-- The wording of a fault. -/
def Fault.message : Fault → String
  | invalid index length =>
    "invalid utf-8 sequence of " ++ toString length ++ " bytes from index " ++ toString index
  | incomplete index => "incomplete utf-8 byte sequence from index " ++ toString index

/-- What stands at the front of a byte sequence. -/
inductive Step where
  /-- A character of `width` bytes. -/
  | character (code width : Nat)
  /-- The first `length` bytes are no beginning of a character together with the byte behind. -/
  | invalid (length : Nat)
  /-- All bytes are the beginning of a character that is longer. -/
  | incomplete

/-- A continuation byte. -/
def isContinuation (b : Nat) : Bool := 0x80 ≤ b && b ≤ 0xBF

/-- The bits that a continuation byte carries. -/
def payload (b : Nat) : Nat := b % 0x40

/-- Read the last continuation byte of a character whose first `width - 1` bytes carry `code`. -/
def lastByte (code width : Nat) : List Nat → Step
  | [] => .incomplete
  | b :: _ => if isContinuation b then .character (code * 0x40 + payload b) width else .invalid (width - 1)

/-- The bytes that may follow the first byte of a character of three or four bytes. They exclude
characters that a shorter form writes, surrogates and what lies above U+10FFFF. -/
def secondByteFits (first second : Nat) : Bool :=
  isContinuation second &&
    !((first == 0xE0 && second < 0xA0) || (first == 0xED && 0xA0 ≤ second) ||
      (first == 0xF0 && second < 0x90) || (first == 0xF4 && 0x90 ≤ second))

/-- The first character of a byte sequence whose first byte is `first`. -/
def step (first : Nat) (rest : List Nat) : Step :=
  if first < 0x80 then .character first 1
  else if 0xC2 ≤ first && first ≤ 0xDF then lastByte (first - 0xC0) 2 rest
  else if 0xE0 ≤ first && first ≤ 0xEF then
    match rest with
    | [] => .incomplete
    | second :: rest =>
      if secondByteFits first second then
        lastByte ((first - 0xE0) * 0x40 + payload second) 3 rest
      else .invalid 1
  else if 0xF0 ≤ first && first ≤ 0xF4 then
    match rest with
    | [] => .incomplete
    | second :: rest =>
      if secondByteFits first second then
        match rest with
        | [] => .incomplete
        | third :: rest =>
          if isContinuation third then
            lastByte (((first - 0xF0) * 0x40 + payload second) * 0x40 + payload third) 4 rest
          else .invalid 2
      else .invalid 1
  else .invalid 1

/-- Decode the bytes from `index` on, behind the characters read so far, the last one first. -/
def decodeFrom (index : Nat) (read : List Char) : List Nat → Except Fault (List Char)
  | [] => .ok read.reverse
  | first :: rest =>
    match step first rest with
    | .character code width =>
      decodeFrom (index + width) (Char.ofNat code :: read) (rest.drop (width - 1))
    | .invalid length => .error (.invalid index length)
    | .incomplete => .error (.incomplete index)
termination_by bytes => bytes.length
decreasing_by simp only [List.length_drop, List.length_cons]; omega

/-- The text that the bytes encode, or the first place where they encode none. -/
def decode (bytes : List UInt8) : Except Fault String :=
  (decodeFrom 0 [] (bytes.map UInt8.toNat)).map String.ofList

end Lox.Text.Utf8
