import Lox.Proofs.Syntax.Attempts
import Lox.Proofs.Token.Tiling

/-!
# The order of the problems of a text

A problem of the scanner is noted when the next token comes into view, and a problem of the grammar at
the token in view or, where too many things are listed, in front of the next one. So the problems are
noted in the order of the text, with one exception: that an assignment has an invalid target is noted at
its sign, when its value was read already. Whatever is wrong with the value was noted before.

* `Cursor.Ordered`: what was noted stands in the order of the text, in front of what is to come;
* `Course.ordered`: the course on which this stays so;
* **`complaints_ordered`**: no problem of a text is noted behind a later one, unless it is an invalid
  target; `invalid_targets_disordered`: two invalid targets are noted the other way round.
-/

namespace Lox

open Lox.Parser

/-- A problem is noted behind no later one, unless it is an invalid target; the last one stands first. -/
def Noted (complaints : List Complaint) : Prop :=
  complaints.Pairwise fun later earlier =>
    later.value ≠ .syntactic .invalidTarget → earlier.position.start ≤ later.position.start

/-- What was noted stands in the order of the text, in front of what is to come. -/
structure Cursor.Ordered (c : Cursor) : Prop where
  sound : c.Sound
  items : (.ok c.current :: c.pending : List Item).Pairwise fun a b =>
    a.position.start ≤ b.position.start
  passed : ∀ x ∈ c.complaints, x.position.start ≤ c.current.position.start
  noted : Noted c.complaints

theorem noted_pull (last : Token) {complaints : List Complaint} {items : List Item}
    (htokens : items.filterMap Except.toOption ≠ [])
    (hitems : items.Pairwise fun a b => a.position.start ≤ b.position.start)
    (hpassed : ∀ x ∈ complaints, ∀ item ∈ items, x.position.start ≤ item.position.start)
    (hnoted : Noted complaints) :
    let (t, rest, noted) := Cursor.pull last complaints items
    .ok t ∈ items ∧
      (.ok t :: rest : List Item).Pairwise (fun a b => a.position.start ≤ b.position.start) ∧
      (∀ x ∈ noted, x.position.start ≤ t.position.start) ∧ Noted noted := by
  induction items generalizing complaints with
  | nil => exact absurd rfl htokens
  | cons item items ih =>
    cases item with
    | ok t =>
      exact ⟨List.mem_cons_self, hitems, fun x hx => hpassed x hx _ List.mem_cons_self, hnoted⟩
    | error p =>
      obtain ⟨hbehind, hrest⟩ := List.pairwise_cons.mp hitems
      have hnoted' : Noted (⟨.lexical p.value, p.position⟩ :: complaints) :=
        .cons (fun x hx _ => hpassed x hx _ List.mem_cons_self) hnoted
      obtain ⟨hmem, hlater⟩ := ih htokens hrest (List.forall_mem_cons.mpr ⟨hbehind,
        fun x hx item hitem => hpassed x hx item (List.mem_cons_of_mem _ hitem)⟩) hnoted'
      exact ⟨List.mem_cons_of_mem _ hmem, hlater⟩

namespace Cursor.Ordered

variable {c : Cursor}

theorem advance (h : c.Ordered) :
    c.advance.Ordered ∧ c.current.position.start ≤ c.advance.current.position.start := by
  by_cases hend : c.current.terminal = .endOfInput
  · rw [Cursor.advance_of_atEnd hend]
    exact ⟨h, Nat.le_refl _⟩
  · obtain ⟨hbehind, hrest⟩ := List.pairwise_cons.mp h.items
    have hat : c.atEnd = false := by simpa [Cursor.atEnd] using hend
    have hpull := noted_pull c.current (h.sound.ended.tail_ne_nil hend) hrest
      (fun x hx item hitem => Nat.le_trans (h.passed x hx) (hbehind item hitem)) h.noted
    have hsound := h.sound.advance
    rw [Cursor.advance, hat] at hsound ⊢
    obtain ⟨hmem, hitems, hpassed, hnoted⟩ := hpull
    exact ⟨⟨hsound, hitems, hpassed, hnoted⟩, hbehind _ hmem⟩

theorem note (h : c.Ordered) (problem : SyntaxProblem) :
    (c.note problem c.current.position).Ordered where
  sound := h.sound.note _ _
  items := h.items
  passed := List.forall_mem_cons.mpr ⟨Nat.le_refl _, h.passed⟩
  noted := .cons (fun x hx _ => h.passed x hx) h.noted

/-- An invalid target may be noted in front of the token in view. -/
theorem target (h : c.Ordered) {place : Position} (hplace : place.start ≤ c.current.position.start) :
    (c.note .invalidTarget place).Ordered where
  sound := h.sound.note _ _
  items := h.items
  passed := List.forall_mem_cons.mpr ⟨hplace, h.passed⟩
  noted := .cons (fun _ _ hne => absurd rfl hne) h.noted

end Cursor.Ordered

/-- The course on which what was noted stays in the order of the text. -/
def Course.ordered : Course where
  Goes c d := c.Ordered → d.Ordered ∧ c.current.position.start ≤ d.current.position.start
  refl _ h := ⟨h, Nat.le_refl _⟩
  trans := fun h h' hc =>
    have ⟨hd, hle⟩ := h hc
    have ⟨he, hle'⟩ := h' hd
    ⟨he, Nat.le_trans hle hle'⟩
  advance _ h := h.advance
  number _ h := ⟨⟨h.sound.number _, h.items, h.passed, h.noted⟩, Nat.le_refl _⟩
  note _ _ h := ⟨h.note _, Nat.le_refl _⟩
  target := fun _ h hc =>
    have ⟨hadvance, hle⟩ := hc.advance
    have ⟨hd, hle'⟩ := h hadvance
    ⟨hd.target (Nat.le_trans hle hle'), Nat.le_trans hle hle'⟩

theorem Course.steady_ordered : Course.ordered.Steady :=
  fun problem _ h => ⟨h.note problem, Nat.le_refl _⟩

theorem ordered_start (source : String) (firstId : ExprId) :
    (Cursor.start (scan source) firstId).Ordered := by
  have htiles := tiles_scan source
  have hitems : (scan source).Pairwise fun a b => a.position.start ≤ b.position.start := by
    refine htiles.ordered.imp_of_mem fun {a b} ha _ hab => Nat.le_trans ?_ hab
    obtain ⟨front, text, -, -, hplace, -⟩ := htiles.placed a ha
    rw [hplace, place, byteLength_append]
    exact Nat.le_add_right _ _
  obtain ⟨-, hrest, hpassed, hnoted⟩ := noted_pull Token.endOfNothing
    (ended_tokens source).ne_nil hitems (fun x hx => absurd hx List.not_mem_nil) .nil
  exact ⟨sound_start source firstId, hrest, hpassed, hnoted⟩

/-- No problem is noted behind a later one, unless it is an invalid target. -/
def InSourceOrder (complaints : List Complaint) : Prop :=
  complaints.Pairwise fun earlier later =>
    later.value ≠ .syntactic .invalidTarget → earlier.position.start ≤ later.position.start

/-- **The problems of a text are noted in its order**, those of the scanner and of the grammar
together, except that an invalid target may be noted behind problems of the value that is
assigned. -/
theorem complaints_ordered (source : String) (firstId : ExprId) :
    InSourceOrder (parse source firstId).complaints ∧
      InSourceOrder (parseExpression source firstId).complaints := by
  have hstart := ordered_start source firstId
  constructor
  · obtain ⟨d, -, hcomplaints, hgoes⟩ := goes_parse source firstId Course.steady_ordered
    rw [hcomplaints]
    exact List.pairwise_reverse.mpr (hgoes hstart).1.noted
  · obtain ⟨d, hcomplaints, hway⟩ := goes_parseExpression source firstId Course.ordered
    have hgoes := hway.elim id fun h => h.goes Course.steady_ordered
    rw [hcomplaints]
    exact List.pairwise_reverse.mpr (hgoes hstart).1.noted

/-- The target of the inner assignment, which is the value of the outer one, is noted first. -/
theorem invalid_targets_disordered :
    ((parse "nil = nil = nil;" 0).complaints.map fun x => (x.value.message, x.position.start)) =
      [("Invalid assignment target.", 10), ("Invalid assignment target.", 4)] ∧
    ¬ (parse "nil = nil = nil;" 0).complaints.Pairwise fun earlier later =>
      earlier.position.start ≤ later.position.start := by
  decide +kernel

end Lox
