import Lox.Proofs.Syntax.Elsewhere

/-!
# Items behind the end of a text

Nothing that stands behind the end of a text comes into view, whatever problems the text has.

* `Cursor.before`: the cursor with more items behind those in front of it; `Cursor.advance_before`: they
  do not matter for moving on;
* `Lockstep.beyond`: a text is read in lockstep with the same text and more items behind it;
* **`Tracks.before`**: so a rule does the same, and leaves those items where they are.
-/

namespace Lox

open Lox.Parser

namespace Cursor

variable {c : Cursor} (beyond : List Item)

/-- The cursor with more items behind those in front of it. -/
def before (c : Cursor) : Cursor := { c with pending := c.pending ++ beyond }

theorem before_nil (c : Cursor) : c.before [] = c := by
  rw [before, List.append_nil]

theorem pull_append (last : Token) (complaints : List Complaint) {items : List Item}
    (h : items.filterMap Except.toOption ≠ []) :
    pull last complaints (items ++ beyond) = ((pull last complaints items).1,
      (pull last complaints items).2.1 ++ beyond, (pull last complaints items).2.2) := by
  induction items generalizing complaints with
  | nil => exact absurd rfl h
  | cons item items ih =>
    cases item with
    | ok t => rfl
    | error p => exact ih _ h

theorem start_append {items : List Item} (h : items.filterMap Except.toOption ≠ [])
    (firstId : ExprId) : start (items ++ beyond) firstId = (start items firstId).before beyond := by
  rw [start, start, pull_append beyond _ _ h]
  rfl

/-- What stands behind the end of a text does not matter for moving on in it. -/
theorem advance_before (hc : c.Sound) : (c.before beyond).advance = c.advance.before beyond := by
  by_cases hend : c.current.terminal = .endOfInput
  · rw [advance_of_atEnd hend, advance_of_atEnd (show (c.before beyond).current.terminal = _ from hend)]
  · have hat : c.atEnd = false := by simpa [atEnd] using hend
    have hat' : (c.before beyond).atEnd = false := hat
    have hpull := pull_append beyond c.current c.complaints (hc.ended.tail_ne_nil hend)
    rw [advance, advance, hat, hat', if_neg Bool.false_ne_true, if_neg Bool.false_ne_true]
    unfold before
    rw [hpull]

end Cursor

/-- A text is read in lockstep with the same text and more items behind it. -/
def Lockstep.beyond (items : List Item) : Lockstep where
  transfer := .stay
  Aligned c d := c.Sound ∧ d = c.before items
  Lost _ := False
  current := by
    rintro c _ ⟨-, rfl⟩
    rfl
  nextId := by
    rintro c _ ⟨-, rfl⟩
    rfl
  advance := by
    rintro c _ ⟨hc, rfl⟩
    exact .inr ⟨hc.advance, Cursor.advance_before items hc⟩
  note := by
    rintro c _ problem place ⟨hc, rfl⟩
    exact .inr ⟨hc.note problem place, rfl⟩
  number := by
    rintro c _ ⟨hc, rfl⟩
    exact ⟨hc.number _, rfl⟩
  lost_advance := id
  lost_note _ _ := id
  lost_number := id

theorem Transfer.expr_stay (e : Expr) : stay.expr e = e := by
  show (e.relocate .inPlace).shift 0 = e
  rw [e.relocate_inPlace, e.shift_zero]

/-- What an action came to, with more items behind those that were not read. -/
def behindResult {α : Type} (beyond : List Item) :
    EStateM.Result Halt Cursor α → EStateM.Result Halt Cursor α
  | .ok a d => .ok a (d.before beyond)
  | .error h d => .error h (d.before beyond)

theorem behindResult_nil {α : Type} (r : EStateM.Result Halt Cursor α) : behindResult [] r = r := by
  cases r <;> simp only [behindResult, Cursor.before_nil]

/-- **A rule that is read in lockstep leaves the items behind a text where they are.** -/
theorem Tracks.before {α : Type} {items : List Item} {x y : Parser α} {image : α → α}
    (h : Tracks (.beyond items) x y image) (himage : ∀ a, image a = a) {c : Cursor} (hc : c.Sound)
    (hfuel : ∀ d, x c ≠ .error .outOfFuel d) :
    y (c.before items) = behindResult items (x c) := by
  have haligned := h.aligned c (c.before items) ⟨hc, rfl⟩
  cases hx : x c with
  | ok a d =>
    obtain hlost | ⟨d', hy, -, rfl⟩ := haligned.ok_of_eq hx
    · exact hlost.elim
    · rw [hy, himage]
      rfl
  | error halt d =>
    cases halt with
    | outOfFuel => exact absurd hx (hfuel d)
    | syntaxProblem =>
      obtain hlost | ⟨d', hy, -, rfl⟩ := haligned.halt_of_eq hx rfl
      · exact hlost.elim
      · exact hy

/-- With nothing behind the text, a rule that is read in lockstep does the same. -/
theorem Tracks.same {α : Type} {x y : Parser α} {image : α → α} (h : Tracks (.beyond []) x y image)
    (himage : ∀ a, image a = a) {c : Cursor} (hc : c.Sound) (hfuel : ∀ d, x c ≠ .error .outOfFuel d) :
    y c = x c := by
  have hbefore := h.before himage hc hfuel
  rwa [Cursor.before_nil, behindResult_nil] at hbefore

theorem Transfer.stmts_stay (ss : List Stmt) : ss.map stay.stmt = ss :=
  (List.map_congr_left fun s _ => stmt_stay s).trans (List.map_id ss)

theorem Transfer.map_stmt_stay (o : Option Stmt) : o.map stay.stmt = o := by
  cases o with
  | none => rfl
  | some s => exact congrArg some (stmt_stay s)

section

variable {fuel fuel' : Nat} (hf : fuel ≤ fuel') (beyond : List Item) {c : Cursor} (hc : c.Sound)

include hf hc

/-- **Nothing behind the end of a text matters for its declarations**, and no bound that is larger than
one that is enough. -/
theorem declarations_before (hfuel : ∀ d, declarations fuel c ≠ .error .outOfFuel d) :
    declarations fuel' (c.before beyond) = behindResult beyond (declarations fuel c) := by
  have htracks := tracks_declarationsFrom (L := .beyond beyond) (tracks_declaration hf).1 hf
    .endOfInput [] #[] #[] rfl
  refine htracks.before (fun ss => ?_) hc hfuel
  rw [List.nil_append]
  exact Transfer.stmts_stay ss

theorem declaration_before {o : Option Stmt} {d : Cursor} (hx : declaration fuel c = .ok o d) :
    declaration fuel' (c.before beyond) = .ok o (d.before beyond) := by
  have htracks := (tracks_declaration (L := .beyond beyond) hf).1
  refine (htracks.before Transfer.map_stmt_stay hc fun d' hd' => ?_).trans (by rw [hx]; rfl)
  rw [hx] at hd'
  cases hd'

/-- **Nothing behind the end of a text matters for the expression that it is.** -/
theorem wholeExpression_before (hfuel : ∀ d, wholeExpression fuel c ≠ .error .outOfFuel d) :
    wholeExpression fuel' (c.before beyond) = behindResult beyond (wholeExpression fuel c) := by
  refine (tracks_wholeExpression hf).before (fun o => ?_) hc hfuel
  cases o with
  | none => rfl
  | some e => exact congrArg some (Transfer.expr_stay e)

end

end Lox
