/-!
# The shortest decimal of a binary fraction

A finite binary floating-point number stands for every real number that rounds to it. Among the
decimals in that interval the shortest ones are taken, and of these the nearest.

* `Decimal`: a coefficient and a power of ten, `Magnitude`: a positive number and its interval;
* `Magnitude.ofFields`: the number a double encodes;
* `Magnitude.shortest`: the shortest decimal in the interval, the nearest of several, the larger
  one of two at the same distance.
-/

namespace Lox.Number

/-- The number `coefficient * 10 ^ exponent`. -/
structure Decimal where
  coefficient : Nat
  exponent : Int
  deriving DecidableEq, Repr

/-- A positive rational number `value / unit` together with the interval from `low / unit` to
`high / unit` of the numbers that round to it; `closed` says that the ends belong to it. -/
structure Magnitude where
  value : Nat
  low : Nat
  high : Nat
  unit : Nat
  closed : Bool
  deriving DecidableEq, Repr

/-- The same number with a coefficient that does not end in a zero. -/
def Decimal.normal (d : Decimal) : Decimal :=
  if h : d.coefficient ≠ 0 ∧ d.coefficient % 10 = 0 then
    normal ⟨d.coefficient / 10, d.exponent + 1⟩
  else d
termination_by d.coefficient
decreasing_by exact Nat.div_lt_self (by omega) (by decide)

namespace Magnitude

/-- The number of decimal digits of `n`. -/
def digitCount (n : Nat) : Nat := (Nat.toDigits 10 n).length

/-- The positive number `significand * 2 ^ exponent` among its binary neighbours. The one below is
half as far away when the significand is the least of its binade, which `narrow` says. -/
def ofBinary (significand : Nat) (exponent : Int) (narrow : Bool) : Magnitude :=
  let quarters := 4 * significand
  let scale := Nat.pow 2 exponent.toNat
  { value := quarters * scale
    low := (quarters - if narrow then 1 else 2) * scale
    high := (quarters + 2) * scale
    unit := 4 * Nat.pow 2 (-exponent).toNat
    closed := significand % 2 == 0 }

/-- The number that the fields of a double encode: an exponent field of 0 means that the leading
bit of the significand is missing. -/
def ofFields (exponentField fraction : Nat) : Magnitude :=
  if exponentField == 0 then ofBinary fraction (-1074) false
  else ofBinary (Nat.pow 2 52 + fraction) (exponentField - 1075) (fraction == 0 && exponentField > 1)

/-- A decimal lies in the interval. -/
def holds (m : Magnitude) (d : Decimal) : Bool :=
  let scaled := d.coefficient * Nat.pow 10 d.exponent.toNat * m.unit
  let scale := Nat.pow 10 (-d.exponent).toNat
  if m.closed then m.low * scale ≤ scaled && scaled ≤ m.high * scale
  else m.low * scale < scaled && scaled < m.high * scale

/-- The exponent `k` with `10 ^ k ≤ value < 10 ^ (k + 1)`. -/
def decimalExponent (m : Magnitude) : Int :=
  if m.unit ≤ m.value then digitCount (m.value / m.unit) - 1
  else -digitCount (m.unit / m.value)

/-- The nearest decimal of the interval on the grid of multiples of `10 ^ exponent`. Only the two
grid points around the value can be nearest. -/
def onGrid? (m : Magnitude) (exponent : Int) : Option Decimal :=
  let num := m.value * Nat.pow 10 (-exponent).toNat
  let den := m.unit * Nat.pow 10 exponent.toNat
  let below : Decimal := ⟨num / den, exponent⟩
  let above : Decimal := ⟨num / den + 1, exponent⟩
  let nearerAbove : Bool := den ≤ 2 * (num % den)
  match m.holds below, m.holds above with
  | true, true => if nearerAbove then some above else some below
  | true, false => some below
  | false, true => some above
  | false, false => none

/-- Try the grids from `exponent` on, each ten times finer than the one before. -/
def search (m : Magnitude) : Nat → Int → Decimal
  | 0, exponent =>
    ⟨m.value * Nat.pow 10 (-exponent).toNat / (m.unit * Nat.pow 10 exponent.toNat), exponent⟩
  | tries + 1, exponent =>
    match m.onGrid? exponent with
    | some d => d
    | none => search m tries (exponent - 1)

/-- The shortest decimal of the interval. Seventeen digits always suffice for a double. -/
def shortest (m : Magnitude) : Decimal := (m.search 17 m.decimalExponent).normal

end Magnitude

end Lox.Number
