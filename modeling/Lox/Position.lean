/-!
# Positions in a source text

* `Position`: the line of a piece of text and the byte range it covers;
* `Position.contains`: whether a byte offset touches the range, both ends included;
* `Located`: a thing together with the position it belongs to.
-/

namespace Lox

/-- Where a piece of source text stands: its line, counted from 1, and the byte range
`[start, stop)` it covers in the UTF-8 encoding of the text. -/
structure Position where
  line : Nat
  start : Nat
  stop : Nat
  deriving DecidableEq, Repr, Inhabited

namespace Position

/-- The position of things that come from no source text. -/
def none : Position := ⟨0, 0, 0⟩

/-- An editor's cursor at `offset` touches the range, also when it stands right behind it. -/
def contains (p : Position) (offset : Nat) : Bool := p.start ≤ offset && offset ≤ p.stop

theorem contains_iff {p : Position} {offset : Nat} :
    p.contains offset = true ↔ p.start ≤ offset ∧ offset ≤ p.stop := by
  simp [contains]

end Position

/-- A thing and the position it belongs to. -/
structure Located (α : Type) where
  value : α
  position : Position
  deriving DecidableEq, Repr

end Lox
