import Lox.Number.Shortest

/-!
# The text of a number

A number is written with the fewest digits that read back to it, positionally and never with an
exponent.

* `text`: a number as `print` shows it;
* `tokenText`: a number literal as a token listing shows it, where an integer keeps a `.0`;
* `ofDigits`: the number nearest to a decimal literal.
-/

namespace Lox.Number

/-- Zeros. -/
def zeros (n : Nat) : String := String.ofList (List.replicate n '0')

/-- A decimal written out positionally. -/
def Decimal.positional (d : Decimal) : String :=
  let digits := Nat.toDigits 10 d.coefficient
  if 0 ≤ d.exponent then String.ofList digits ++ zeros d.exponent.toNat
  else
    let places := (-d.exponent).toNat
    if digits.length ≤ places then "0." ++ zeros (places - digits.length) ++ String.ofList digits
    else
      let whole := digits.length - places
      String.ofList (digits.take whole) ++ "." ++ String.ofList (digits.drop whole)

/-- The two fields of a double below its sign: the exponent field and the fraction. -/
def fields (x : Float) : Nat × Nat :=
  let bits := x.toBits.toNat % Nat.pow 2 63
  (bits / Nat.pow 2 52, bits % Nat.pow 2 52)

/-- The sign bit of a double. -/
def isNegative (x : Float) : Bool := Nat.pow 2 63 ≤ x.toBits.toNat

/-- A number as `print` shows it. The sign of zero is kept, a value that is no number has none. -/
def text (x : Float) : String :=
  let (exponentField, fraction) := fields x
  let sign := if isNegative x then "-" else ""
  if exponentField == 2047 then if fraction == 0 then sign ++ "inf" else "NaN"
  else if exponentField == 0 && fraction == 0 then sign ++ "0"
  else sign ++ (Magnitude.ofFields exponentField fraction).shortest.positional

/-- The integer a double is equal to, if it is one below `2 ^ 63` in size; the sign is left out. -/
def smallInteger? (x : Float) : Option Nat :=
  let (exponentField, fraction) := fields x
  if exponentField == 0 && fraction == 0 then some 0
  else
    let significand := Nat.pow 2 52 + fraction
    if exponentField < 1023 || 1086 ≤ exponentField then none
    else if 1075 ≤ exponentField then some (significand * Nat.pow 2 (exponentField - 1075))
    else
      let places := Nat.pow 2 (1075 - exponentField)
      if significand % places == 0 then some (significand / places) else none

/-- A number literal as a token listing shows it: an integer below `2 ^ 63` in size has all its
digits and `.0`, any other number looks as `print` shows it. -/
def tokenText (x : Float) : String :=
  match smallInteger? x with
  | some n =>
    (if isNegative x && n != 0 then "-" else "") ++ String.ofList (Nat.toDigits 10 n) ++ ".0"
  | none => text x

/-- The value of a digit. -/
def digitValue (c : Char) : Nat := c.toNat - '0'.toNat

/-- The number that a row of digits writes in base ten. -/
def ofDigitRow (digits : List Char) : Nat := digits.foldl (fun n c => 10 * n + digitValue c) 0

/-- The double nearest to the decimal `whole.fraction`, ties going to the even neighbour. -/
def ofDigits (whole fraction : List Char) : Float :=
  Float.ofScientific (ofDigitRow (whole ++ fraction)) true fraction.length

end Lox.Number
